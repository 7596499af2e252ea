import GibbsNewton.Equilibrium.Options

/-!
# Options as records

The options of runs and of equilibrium calculations as positional records, with the field names that
a caller sees.

## Main definitions

* `Layout.record`, `Optimum.Options.record`, `Equilibrium.Options.record` — the records.
-/

namespace GibbsNewton

variable {α : Type}

/-- A tuple of texts. -/
def Value.texts (ss : List String) : Value α := .tuple (ss.map .text)

/-- The look of a table.  The last field is where it is printed, which is always the standard
output. -/
def Layout.record (l : Layout) : Value α :=
  .record .positional "OutputOptions" [
    ("active", .bool l.active),
    ("xprefix", .text l.xprefix), ("yprefix", .text l.yprefix), ("zprefix", .text l.zprefix),
    ("xnames", .texts l.xnames), ("ynames", .texts l.ynames), ("znames", .texts l.znames),
    ("width", .int l.width), ("precision", .int l.precision), ("stream", .none)]

namespace Optimum.Options

/-- The method for the Newton system. -/
def methodRecord (o : Options α) : Value α :=
  .record .positional "KktOptions" [("method", .text o.kkt)]

/-- The parameters of the steps. -/
def stepRecord (o : Options α) : Value α :=
  .record .positional "IpnewtonOptions" [
    ("mu", .real o.mu), ("mux", .real o.mux), ("tau", .real o.tau),
    ("uniform_newton_step", .bool o.uniform)]

/-- The options of a run. -/
def record (o : Options α) : Value α :=
  .record .positional "OptimumOptions" [
    ("tolerance", .real o.tolerance), ("max_iterations", .int o.maxIterations),
    ("hessian", .text o.hessian), ("kkt", o.methodRecord), ("ipnewton", o.stepRecord),
    ("output", o.output.record)]

end Optimum.Options

/-- The options of an equilibrium calculation. -/
def Equilibrium.Options.record (o : Options α) : Value α :=
  .record .positional "EquilibriumOptions" [
    ("hessian", .text o.hessian), ("method", .text o.method),
    ("feasibility", .bool o.feasibility), ("warmstart", .bool o.warmstart),
    ("optimum", o.optimum.record)]

end GibbsNewton
