import Barrage.Bake.Serving
import Barrage.Proofs.Expr.TypeSoundness

/-!
# Serving by position

A source that is served hands out its units in the order of recording, whatever is asked for. The place
alone decides which unit a demand meets, and that unit alone decides the answer: it fits, or there is a
mismatch at that place, and it is passed either way. When all units are passed every demand fails, and
the source stays as it is. So no demand can move another one to a different unit.

## Main definitions

* `Demand` — what a unit is asked for with: a signature, and values for its leading parameters
* `Demand.Fits`, `Demand.answer` — that a unit is what was asked for, and its answer
* `Serving.serve` — the answers to demands one after another, and the source behind them

## Main results

* `Serving.serve_eq` — demand after demand is answered by unit after unit
* `Serving.serve_byPosition` — the same in full: places, answers, calls of what is handed out
-/

namespace Barrage

namespace Callable

theorem exists_bindLeading_eq_error {c : Callable} {values : List Value}
    (h : ¬ values.map Value.type <+: c.signature.params) : ∃ e, c.bindLeading values = .error e := by
  cases hcheck : checkArgs c.signature.params values with
  | error e => exact ⟨e, by rw [bindLeading, hcheck]; rfl⟩
  | ok done => exact absurd (checkArgs_eq_ok_iff.1 hcheck) h

end Callable

/-- What a unit is asked for with. -/
structure Demand where
  /-- The signature that the unit should have, the parameters of the values included. -/
  expected : Signature
  /-- Values for its leading parameters. -/
  proxies : List Value

namespace Demand

/-- A unit is what was asked for: it has the signature, and the values are no more than its parameters and
have the types of the leading ones. -/
def Fits (d : Demand) (unit : BakedUnit) : Prop :=
  unit.signature = d.expected ∧ d.proxies.map Value.type <+: unit.signature.params

instance (d : Demand) (unit : BakedUnit) : Decidable (d.Fits unit) :=
  inferInstanceAs (Decidable (_ ∧ _))

/-- The callable of a unit with the values fixed. -/
def callable (d : Demand) (unit : BakedUnit) : Callable where
  signature := ⟨unit.signature.params.drop d.proxies.length, unit.signature.returns⟩
  bound := d.proxies
  body := .unit unit

/-- What a mismatch says was found: the signature of the unit, or the types of the values. -/
def found (d : Demand) (unit : BakedUnit) : String :=
  if unit.signature = d.expected then
    "proxies (" ++ ValueType.names (d.proxies.map Value.type) ++ ")"
  else unit.signature.text

/-- The answer of the unit at some place of a source with so many units. -/
def answer (d : Demand) (file : FileId) (place total : Nat) (unit : BakedUnit) :
    Except BakeError Callable :=
  if d.Fits unit then .ok (d.callable unit)
  else .error (.typeMismatch file place total d.expected.text (d.found unit))

end Demand

/-- The error of a demand behind the last of so many units. -/
def BakeError.exhausted (file : FileId) (total : Nat) : BakeError :=
  if total = 0 then .noBakedUnits file else .notEnoughBakedUnits file (total + 1) total

namespace Serving

/-- The answers to demands one after another, and the source behind them. -/
def serve (s : Serving) : List Demand → List (Except BakeError Callable) × Serving
  | [] => ([], s)
  | d :: ds =>
    let (answer, s) := s.next d.expected d.proxies
    let (answers, s) := s.serve ds
    (answer :: answers, s)

variable {s : Serving} {d : Demand} {ds : List Demand}

/-- A demand meets the unit at the cursor, and passes it. -/
theorem next_of_unit {unit : BakedUnit} (h : s.units[s.cursor]? = some unit) :
    s.next d.expected d.proxies =
      (d.answer s.file (s.cursor + 1) s.units.length unit, { s with cursor := s.cursor + 1 }) := by
  rw [next, h, Demand.answer, Demand.found]
  by_cases hsignature : unit.signature = d.expected
  · by_cases hproxies : d.proxies.map Value.type <+: unit.signature.params
    · have hbind := Callable.bindLeading_eq_ok (c := .ofUnit unit) hproxies
      rw [if_pos (show d.Fits unit from ⟨hsignature, hproxies⟩)]
      simp only [ne_eq, hsignature, not_true_eq_false, if_false, hbind]
      rfl
    · obtain ⟨e, hbind⟩ := Callable.exists_bindLeading_eq_error (c := .ofUnit unit) hproxies
      rw [if_neg (show ¬ d.Fits unit from fun hfits => hproxies hfits.2)]
      simp [hsignature, hbind]
  · rw [if_neg (show ¬ d.Fits unit from fun hfits => hsignature hfits.1)]
    simp [hsignature]

/-- A demand behind the last unit fails, and leaves the source as it is. -/
theorem next_of_passed (h : s.cursor = s.units.length) :
    s.next d.expected d.proxies = (.error (.exhausted s.file s.units.length), s) := by
  rw [next, List.getElem?_eq_none (Nat.le_of_eq h.symm)]
  simp only [BakeError.exhausted, h, List.isEmpty_iff_length_eq_zero]

/-- Demand after demand is answered by unit after unit, from the cursor on. -/
theorem serve_eq (hcursor : s.cursor ≤ s.units.length) :
    s.serve ds =
      (ds.mapIdx fun k d =>
        match s.units[s.cursor + k]? with
        | some unit => d.answer s.file (s.cursor + k + 1) s.units.length unit
        | none => .error (.exhausted s.file s.units.length),
      { s with cursor := min (s.cursor + ds.length) s.units.length }) := by
  -- A demand moves the cursor on by one until all units are passed, and no further.
  induction ds generalizing s with
  | nil => simp [serve, hcursor]
  | cons d ds ih =>
    rw [serve]
    rcases Nat.lt_or_eq_of_le hcursor with hlt | heq
    · have hunit : s.units[s.cursor]? = some s.units[s.cursor] := List.getElem?_eq_getElem hlt
      rw [next_of_unit hunit]
      simp only [ih (s := { s with cursor := s.cursor + 1 }) hlt]
      simp [List.mapIdx_cons, hlt, Nat.add_assoc, Nat.add_comm 1]
    · rw [next_of_passed heq]
      simp only [ih hcursor]
      simp [List.mapIdx_cons, heq]

end Serving

namespace Demand

variable {d : Demand} {unit : BakedUnit}

/-- A unit that fits is handed out with the parameters that are left open, and a call of it runs the unit
with the values in front of the arguments. -/
theorem invoke_callable {args : List Value} (hosts : Hosts)
    (hargs : args.map Value.type = unit.signature.params.drop d.proxies.length) :
    (d.callable unit).invoke args hosts =
      match unit.call (d.proxies ++ args) hosts with
      | (.error e, hosts) => (.error e, hosts)
      | (.ok v, hosts) =>
        if v.type = unit.signature.returns then (.ok v, hosts)
        else (.error (.returnType unit.signature.returns v.type.name), hosts) :=
  Callable.invoke_eq hosts hargs

end Demand

namespace Serving

/-- Serving goes by position, whatever is asked for. After `k` demands on `n` units the cursor is at
`min k n` and nothing else of the source has changed. Demand `k` meets the `k`th unit and no other: if the
unit fits it is handed out, a callable of the remaining signature that runs the unit with the values in
front of the arguments, and otherwise there is a mismatch at place `k` of `n`. A demand behind the last
unit fails for want of units. -/
theorem serve_byPosition (file : FileId) (units : List BakedUnit) (ds : List Demand) :
    let start : Serving := ⟨file, units, 0⟩
    (∀ k ≤ ds.length,
      (start.serve (ds.take k)).2 = ⟨file, units, min k units.length⟩ ∧
      (start.serve (ds.take k)).2.cursor ≤ units.length ∧
      (start.serve (ds.take k)).2.remaining = units.length - min k units.length) ∧
    (start.serve ds).1.length = ds.length ∧
    ∀ k d, ds[k]? = some d →
      (∀ unit, units[k]? = some unit →
        (d.Fits unit →
          ∃ c, (start.serve ds).1[k]? = some (.ok c) ∧
            c.signature = ⟨unit.signature.params.drop d.proxies.length, unit.signature.returns⟩ ∧
            ∀ (args : List Value) (hosts : Hosts), args.map Value.type = c.signature.params →
              c.invoke args hosts =
                match unit.call (d.proxies ++ args) hosts with
                | (.error e, hosts) => (.error e, hosts)
                | (.ok v, hosts) =>
                  if v.type = unit.signature.returns then (.ok v, hosts)
                  else (.error (.returnType unit.signature.returns v.type.name), hosts)) ∧
        (¬ d.Fits unit →
          (start.serve ds).1[k]? = some (.error
            (.typeMismatch file (k + 1) units.length d.expected.text (d.found unit))))) ∧
      (units.length ≤ k →
        (start.serve ds).1[k]? = some (.error
          (if units.length = 0 then .noBakedUnits file
          else .notEnoughBakedUnits file (units.length + 1) units.length))) := by
  intro start
  have hserve (ds : List Demand) := @serve_eq start ds (Nat.zero_le _)
  refine ⟨fun k hk => ?state, by simp [hserve], fun k d hd =>
    ⟨fun unit hunit => ⟨fun hfits => ?fits, fun hdiffers => ?differs⟩, fun hpassed => ?passed⟩⟩
  case state =>
    have hstate : (start.serve (ds.take k)).2 = ⟨file, units, min k units.length⟩ := by
      rw [hserve, List.length_take, Nat.min_eq_left hk]
      simp [start]
    rw [hstate]
    exact ⟨rfl, Nat.min_le_right _ _, rfl⟩
  case fits =>
    refine ⟨d.callable unit, ?_, rfl, fun args hosts hargs => Demand.invoke_callable hosts hargs⟩
    simp [hserve, start, hd, hunit, Demand.answer, hfits]
  case differs => simp [hserve, start, hd, hunit, Demand.answer, hdiffers]
  case passed => simp [hserve, start, hd, List.getElem?_eq_none hpassed, BakeError.exhausted]

/-- A mismatch, a unit with a fixed argument, and a demand too many. -/
theorem serve_byPosition_two :
    let file : FileId := ⟨"Sm1"⟩
    let square : Signature := ⟨[.int], .int⟩
    let sum : Signature := ⟨[.int, .int], .int⟩
    let start : Serving := ⟨file, [⟨"Sm1_0", square, ⟨[], []⟩⟩, ⟨"Sm1_1", sum, ⟨[], []⟩⟩], 0⟩
    let ds : List Demand := [⟨sum, [.int 1]⟩, ⟨sum, [.int 1]⟩, ⟨square, []⟩]
    (start.serve ds).1[0]? = some (.error (.typeMismatch file 1 2 sum.text square.text)) ∧
      (∃ c, (start.serve ds).1[1]? = some (.ok c) ∧ c.signature = square) ∧
      (start.serve ds).1[2]? = some (.error (.notEnoughBakedUnits file 3 2)) ∧
      (start.serve ds).2.remaining = 0 := by
  intro file square sum start ds
  obtain ⟨hstate, -, hanswers⟩ := serve_byPosition file start.units ds
  obtain ⟨hfirst, -⟩ := hanswers 0 _ rfl
  obtain ⟨hsecond, -⟩ := hanswers 1 _ rfl
  obtain ⟨-, hthird⟩ := hanswers 2 _ rfl
  obtain ⟨c, hc, hsignature, -⟩ := (hsecond _ rfl).1 (by decide)
  exact ⟨(hfirst _ rfl).2 (by decide), ⟨c, hc, hsignature⟩, hthird (by decide),
    (hstate 3 (by decide)).2.2⟩

end Serving

end Barrage
