import ZprUtils.Foundations.Atomicity

/-!
# The calls of an RCU box

An `RcuBox` holds a value that any number of threads inspect, get, write and update. There are five
implementations of the box, all with the same calls. The closures of `inspect` and `update` are pure
functions; what `inspect` returns is the value that its closure sees.

## Main definitions

* `BoxOp`, `BoxRet` — the calls and what they return.
* `BoxOp.spec` — a call that runs alone.
-/

namespace ZprUtils.Rcu

variable {V : Type}

/-- A call on the box. -/
inductive BoxOp (V : Type) where
  | inspect
  | get
  | write (newValue : V)
  | update (f : V → Option V)

/-- What a call returns: the value it has seen, or whether an update was made. -/
inductive BoxRet (V : Type) where
  | seen (v : V)
  | written
  | updated (ok : Bool)

namespace BoxOp

/-- A call that runs alone: what it returns and the value it leaves. -/
def spec : BoxOp V → V → BoxRet V × V
  | .inspect, v => (.seen v, v)
  | .get, v => (.seen v, v)
  | .write newValue, _ => (.written, newValue)
  | .update f, v =>
    match f v with
    | some newValue => (.updated true, newValue)
    | none => (.updated false, v)

theorem spec_update_of_some {f : V → Option V} {v w : V} (h : f v = some w) :
    (update f).spec v = (.updated true, w) := by
  simp only [spec, h]

theorem spec_update_of_none {f : V → Option V} {v : V} (h : f v = none) :
    (update f).spec v = (.updated false, v) := by
  simp only [spec, h]

end BoxOp

end ZprUtils.Rcu
