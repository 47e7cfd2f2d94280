import Barrage.Expr.Parser

/-!
# Results of readers

A reader ends in a result or in a fault, and it may create timers on its way.

## Main definitions

* `Expr.Parse.Satisfies` — what holds of every result of a reader
-/

namespace Barrage.Expr

namespace Parse

variable {α β : Type} {P : α → Prop} {Q : β → Prop}

/-- What holds of every result of a reader, whatever the hosts are that it resolves names in. -/
def Satisfies (P : α → Prop) (p : Parse α) : Prop :=
  ∀ hosts a, (p.run.run hosts).1 = .ok a → P a

theorem satisfies_pure {a : α} (h : P a) : Satisfies P (pure a) := by
  intro hosts b hb
  cases hb
  exact h

theorem satisfies_throw {e : ParseError} : Satisfies P (throw e) := by
  intro hosts a h
  cases h

theorem satisfies_fail {i : Input} {fault : ParseFault} : Satisfies P (i.fail fault) :=
  satisfies_throw

theorem satisfies_trivial {p : Parse α} : Satisfies (fun _ => True) p :=
  fun _ _ _ => trivial

theorem run_bind_of_ok {p : Parse α} {f : α → Parse β} {hosts later : Hosts} {a : α}
    (h : p.run.run hosts = (.ok a, later)) : (p >>= f).run.run hosts = (f a).run.run later := by
  rw [ExceptT.run_bind, StateT.run_bind, h]
  rfl

theorem run_bind_of_error {p : Parse α} {f : α → Parse β} {hosts later : Hosts} {e : ParseError}
    (h : p.run.run hosts = (.error e, later)) : (p >>= f).run.run hosts = (.error e, later) := by
  rw [ExceptT.run_bind, StateT.run_bind, h]
  rfl

/-- Sequencing: what follows may rely on what holds of the first result. -/
theorem Satisfies.bind {p : Parse α} {f : α → Parse β} (hp : Satisfies P p)
    (hf : ∀ a, P a → Satisfies Q (f a)) : Satisfies Q (p >>= f) := by
  intro hosts b h
  rcases hr : p.run.run hosts with ⟨e | a, later⟩
  · rw [run_bind_of_error hr] at h
    cases h
  · rw [run_bind_of_ok hr] at h
    exact hf a (hp hosts a (by rw [hr])) later b h

end Parse

end Barrage.Expr
