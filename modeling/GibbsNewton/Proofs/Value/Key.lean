import GibbsNewton.Value.Key
import Mathlib.Algebra.Ring.Nat
import Mathlib.Data.List.Basic

/-!
# Stored arrays and their keys

Arrays of doubles are stored in blocks of eight bytes, one for each entry.  A block determines the bits of
its entry, and the bits determine the double, so two arrays that are stored alike are the same.

A key has everything that is stored but the type of the entries, of which it has the text.  So keys tell
arrays apart as far as these texts tell their types apart, and no further.

## Main results

* `littleEndian_inj` — some bytes of a number determine it, if it has no more.
* `List.flatMap_injective` — blocks of one size determine the list that they were made of.
* `Tensor.stored_injective` — **how an array of doubles is stored determines it.**
* `StoredArray.key_eq_iff`, `StoredArray.sameKeys_keys_iff` — when arrays have one key, and when arguments
  that are arrays count as the same.
* `StoredArray.eq_of_keys_eq` — **keys tell arguments apart where texts tell types apart.**
-/

namespace GibbsNewton

@[simp] theorem length_littleEndian (count n : ℕ) : (littleEndian count n).length = count := by
  induction count generalizing n with
  | zero => rfl
  | succ count ih => rw [littleEndian, List.length_cons, ih]

theorem littleEndian_inj {count : ℕ} : ∀ {a b : ℕ}, a < 256 ^ count → b < 256 ^ count →
    littleEndian count a = littleEndian count b → a = b := by
  induction count with
  | zero =>
    intro a b ha hb _
    omega
  | succ count ih =>
    intro a b ha hb h
    obtain ⟨hfirst, hrest⟩ := List.cons.inj h
    have hlow : a % 256 = b % 256 := by simpa using congrArg UInt8.toNat hfirst
    -- a number is its lowest byte and the rest, and each has its own place
    rw [Nat.pow_succ] at ha hb
    have hhigh : a / 256 = b / 256 := ih (by omega) (by omega) hrest
    omega

/-- Blocks of one size determine the list that they were made of. -/
theorem List.flatMap_injective {β γ : Type} {f : β → List γ} {size : ℕ} (hsize : 0 < size)
    (hlength : ∀ b, (f b).length = size) (hf : Function.Injective f) :
    Function.Injective fun xs : List β => xs.flatMap f := by
  have hne : ∀ b (rest : List γ), f b ++ rest ≠ [] := by
    intro b rest h
    have hempty := congrArg List.length (List.append_eq_nil_iff.mp h).1
    rw [hlength, List.length_nil] at hempty
    omega
  intro xs
  induction xs with
  | nil =>
    intro ys h
    cases ys with
    | nil => rfl
    | cons y ys => exact absurd h.symm (hne y _)
  | cons x xs ih =>
    intro ys h
    cases ys with
    | nil => exact absurd h (hne x _)
    | cons y ys =>
      simp only [List.flatMap_cons] at h
      obtain ⟨hfirst, hrest⟩ := List.append_inj h ((hlength x).trans (hlength y).symm)
      rw [hf hfirst, ih hrest]

theorem Float.toBits_injective : Function.Injective Float.toBits := by
  rintro ⟨⟨a, ha⟩⟩ ⟨⟨b, hb⟩⟩ h
  obtain rfl : a = b := h
  rfl

/-- **How an array of doubles is stored determines it.** -/
theorem Tensor.stored_injective : Function.Injective Tensor.stored := by
  intro s t h
  obtain ⟨hshape, -, hbytes⟩ := (StoredArray.mk.injEq ..).mp h
  have hblock : Function.Injective fun x : Float => littleEndian 8 x.toBits.toNat := by
    intro x y hxy
    refine Float.toBits_injective (UInt64.toNat_inj.mp ?_)
    exact littleEndian_inj x.toBits.toNat_lt y.toBits.toNat_lt hxy
  have hlength : ∀ x : Float, (littleEndian 8 x.toBits.toNat).length = 8 := fun x =>
    length_littleEndian 8 _
  have hentries := List.flatMap_injective (by decide) hlength hblock hbytes
  obtain ⟨shape, entries⟩ := s
  obtain rfl : shape = t.shape := hshape
  obtain rfl : entries = t.entries := hentries
  rfl

/-! ### Keys -/

namespace StoredArray

variable {δ : Type} {text : δ → String}

/-- Two arrays have one key exactly if they agree in shape and bytes and their types have one text. -/
theorem key_eq_iff {a b : StoredArray δ} :
    a.key text = b.key text ↔ a.shape = b.shape ∧ text a.type = text b.type ∧ a.bytes = b.bytes := by
  simp only [key, ArrayKey.mk.injEq]

/-- The keys of arguments are compared as they are. -/
theorem sameKeys_keys_iff (as bs : List (StoredArray δ)) :
    sameKeys (keys text as) (keys text bs) = true ↔ keys text as = keys text bs := by
  induction as generalizing bs with
  | nil => cases bs <;> simp [sameKeys, keys]
  | cons a as ih =>
    cases bs with
    | nil => simp [sameKeys, keys]
    | cons b bs =>
      have hrest := ih bs
      unfold keys at hrest ⊢
      simp [sameKeys, ArgumentKey.same, hrest]

/-- **Keys tell arguments apart** whose types are told apart by their texts. -/
theorem eq_of_keys_eq {as bs : List (StoredArray δ)}
    (htext : ∀ a ∈ as, ∀ b ∈ bs, text a.type = text b.type → a.type = b.type)
    (h : keys text as = keys text bs) : as = bs := by
  induction as generalizing bs with
  | nil =>
    cases bs with
    | nil => rfl
    | cons b bs => cases h
  | cons a as ih =>
    cases bs with
    | nil => cases h
    | cons b bs =>
      obtain ⟨hfirst, hrest⟩ := List.cons.inj h
      obtain ⟨hshape, htype, hbytes⟩ := key_eq_iff.mp (ArgumentKey.array.inj hfirst)
      have hab : a = b := by
        obtain ⟨shape, type, bytes⟩ := a
        obtain ⟨shape', type', bytes'⟩ := b
        obtain rfl : shape = shape' := hshape
        obtain rfl : type = type' := htext _ List.mem_cons_self _ List.mem_cons_self htype
        obtain rfl : bytes = bytes' := hbytes
        rfl
      rw [hab, ih (fun x hx y hy => htext x (List.mem_cons_of_mem _ hx) y (List.mem_cons_of_mem _ hy))
        hrest]

end StoredArray

/-- The texts of the types of values tell these apart. -/
theorem EntryType.text_injective : Function.Injective EntryType.text := by
  intro s t h
  cases s <;> cases t <;> first | rfl | exact absurd h (by decide)

end GibbsNewton
