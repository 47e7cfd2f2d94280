import Barrage.Chunk.Run
import Barrage.Proofs.Expr.WellTyped

/-!
# Runs that serve evaluations

A run of the serving language serves an evaluation if it ends in the same value, or in a fault where the
evaluation ends in an error, and leaves the host objects alone. Nothing is said of an evaluation that
reads a name which stands for nothing; the serving language may know such a name.

On operands that the type tables of expressions allow, the operators of the serving language do what
those of expressions do, with the tolerant comparisons of floats. A whole number is converted only beside
a double, and the tables allow no such pair. The functions that every chunk can call are the functions
of expressions, for a fixed number of arguments.

## Main definitions

* `Chunk.Serves` — what a run has to do with an evaluation

## Main results

* `Chunk.Serves.bind` — sequencing
* `Datum.operate?_binary`, `Datum.operate?_add`, `Datum.operate?_mul` — operators on fitting operands
* `Chunk.serves_native` — functions on values
-/

namespace Barrage

namespace Chunk

variable {α β γ δ : Type} {hosts hosts' : Hosts}

/-! ### Runs -/

theorem run_bind_of_ok {run : Run β} {k : β → Run γ} {b : β}
    (h : run.run.run hosts = (.ok b, hosts')) : (run >>= k).run.run hosts = (k b).run.run hosts' := by
  simp only [ExceptT.run_bind, StateT.run_bind, h]
  rfl

theorem run_bind_of_error {run : Run β} {k : β → Run γ} {halt : Halt}
    (h : run.run.run hosts = (.error halt, hosts')) :
    (run >>= k).run.run hosts = (.error halt, hosts') := by
  simp only [ExceptT.run_bind, StateT.run_bind, h]
  rfl

theorem run_tryCatch_of_ok {run : Run α} {handler : Halt → Run α} {a : α}
    (h : run.run.run hosts = (.ok a, hosts')) : (tryCatch run handler).run.run hosts = (.ok a, hosts') := by
  have hrun : StateT.run run hosts = (.ok a, hosts') := h
  simp only [tryCatch, tryCatchThe, MonadExceptOf.tryCatch, ExceptT.tryCatch, ExceptT.run_mk,
    StateT.run_bind]
  rw [hrun]
  rfl

theorem run_tryCatch_of_error {run : Run α} {handler : Halt → Run α} {halt : Halt}
    (h : run.run.run hosts = (.error halt, hosts')) :
    (tryCatch run handler).run.run hosts = (handler halt).run.run hosts' := by
  have hrun : StateT.run run hosts = (.error halt, hosts') := h
  simp only [tryCatch, tryCatchThe, MonadExceptOf.tryCatch, ExceptT.tryCatch, ExceptT.run_mk,
    StateT.run_bind]
  rw [hrun]
  rfl

theorem run_map_of_error {run : Run α} {f : α → β} {halt : Halt}
    (h : run.run.run hosts = (.error halt, hosts')) :
    (f <$> run).run.run hosts = (.error halt, hosts') := by
  rw [ExceptT.run_map, StateT.run_map, h]
  rfl

theorem run_map_of_ok {run : Run α} {f : α → β} {a : α}
    (h : run.run.run hosts = (.ok a, hosts')) : (f <$> run).run.run hosts = (.ok (f a), hosts') := by
  rw [ExceptT.run_map, StateT.run_map, h]
  rfl

/-- A run that comes to its end has that value, if it gave none before. -/
theorem run_settled_of_ok {run : Run Datum} {d : Datum}
    (h : run.run.run hosts = (.ok d, hosts')) : (settled run).run.run hosts = (.ok d, hosts') := by
  have htry : (untilGiven run).run.run hosts = (.ok (.ok d), hosts') := run_tryCatch_of_ok (run_map_of_ok h)
  rw [settled, run_bind_of_ok htry]
  rfl

theorem run_settled_of_given {run : Run Datum} {d : Datum}
    (h : run.run.run hosts = (.error (.given d), hosts')) :
    (settled run).run.run hosts = (.ok d, hosts') := by
  have htry : (untilGiven run).run.run hosts = (.ok (.error d), hosts') :=
    run_tryCatch_of_error (run_map_of_error h)
  rw [settled, run_bind_of_ok htry]
  rfl

theorem run_settled_of_fault {run : Run Datum} (h : run.run.run hosts = (.error .fault, hosts')) :
    (settled run).run.run hosts = (.error .fault, hosts') := by
  have htry : (untilGiven run).run.run hosts = (.error .fault, hosts') :=
    run_tryCatch_of_error (run_map_of_error h)
  rw [settled, run_bind_of_error htry]

/-! ### Serving -/

/-- A run that ends as an evaluation does, up to the form of the values and the kind of the error. -/
def Serves (hosts : Hosts) (run : Run β) (conv : α → β) : Except EvalError α → Prop
  | .ok a => run.run.run hosts = (.ok (conv a), hosts)
  | .error e => (∀ slot, e ≠ .unboundSlot slot) → run.run.run hosts = (.error .fault, hosts)

theorem Serves.bind {run : Run β} {k : β → Run δ} {conv : α → β} {conv' : γ → δ}
    {r : Except EvalError α} {f : α → Except EvalError γ} (h : Serves hosts run conv r)
    (hk : ∀ a, r = .ok a → Serves hosts (k (conv a)) conv' (f a)) :
    Serves hosts (run >>= k) conv' (r >>= f) := by
  cases r with
  | error e => exact fun he => run_bind_of_error (h he)
  | ok a =>
    have hrest := hk a rfl
    change Serves hosts (run >>= k) conv' (f a)
    unfold Serves at hrest ⊢
    rw [run_bind_of_ok h]
    exact hrest

theorem serves_ofOption {conv : α → β} {o : Option β} {r : Except EvalError α}
    (h : o = r.toOption.map conv) : Serves hosts (ofOption o) conv r := by
  subst h
  cases r with
  | error e => exact fun _ => rfl
  | ok a => rfl

/-- Evaluations that end alike are served alike, whichever error they end in. -/
theorem Serves.congr {run : Run β} {conv : α → β} {r s : Except EvalError α}
    (h : Serves hosts run conv r) (hok : ∀ a, s = .ok a → r = .ok a)
    (herror : ∀ e, s = .error e → (∀ slot, e ≠ .unboundSlot slot) →
      ∃ e', r = .error e' ∧ ∀ slot, e' ≠ .unboundSlot slot) : Serves hosts run conv s := by
  cases s with
  | ok a =>
    rw [hok a rfl] at h
    exact h
  | error e =>
    intro he
    obtain ⟨e', rfl, he'⟩ := herror e rfl he
    exact h he'

end Chunk

/-! ### Operators -/

namespace Datum

variable {a b : Value} {ty : ValueType}

/-- Nothing is converted if both operands are whole numbers or neither is one. -/
theorem align_eq (h : a.type = .int ↔ b.type = .int) : align a b = (a, b) := by
  cases a <;> cases b <;> first | rfl | exact absurd h (by simp [Value.type])

theorem operate?_add (h : a.type = .int ↔ b.type = .int) :
    operate? (.func .add) (value a) (value b) = (a.plus b).toOption.map value := by
  simp only [operate?, calculate?, align_eq h]

theorem operate?_mul (h : a.type = .int ↔ b.type = .int) :
    operate? (.func .mul) (value a) (value b) = (a.times b).toOption.map value := by
  simp only [operate?, calculate?, align_eq h]

/-- The operands of an operator are both whole numbers or neither is one. -/
theorem int_iff_of_type? {op : BinOp} {s t : ValueType} (h : op.type? s t = some ty) :
    s = .int ↔ t = .int := by
  cases op <;> cases s <;> cases t <;> first | decide | cases h

/-- What a comparison says of values that it is defined for. -/
theorem compareValues?_eq {op : BinOp} (hcomparison : isComparison op = true)
    (h : op.type? a.type b.type = some ty) :
    (compareValues? op a b).map ofBool = (Value.binary .tolerant op a b).toOption.map value := by
  unfold compareValues?
  rw [align_eq (int_iff_of_type? h)]
  cases op <;> try cases hcomparison
  all_goals
    cases a <;> cases b <;> first | (cases h; done) | rfl | skip
  -- Only truth values are left; they are compared by their order.
  all_goals
    rename_i x y
    cases x <;> cases y <;> rfl

/-- An operator on values that it is defined for. -/
theorem operate?_binary {op : BinOp} (h : op.type? a.type b.type = some ty) :
    operate? (.op op) (value a) (value b) = (Value.binary .tolerant op a b).toOption.map value := by
  by_cases hcomparison : isComparison op = true
  · have hcompare : operate? (.op op) (value a) (value b) = (compareValues? op a b).map ofBool := by
      cases op <;> first | rfl | cases hcomparison
    rw [hcompare, compareValues?_eq hcomparison h]
  · have hcalculate : operate? (.op op) (value a) (value b) = (calculate? (.op op) a b).map value := by
      cases op <;> first | rfl | exact absurd rfl hcomparison
    rw [hcalculate, calculate?, align_eq (int_iff_of_type? h)]

theorem mapM_value? (vs : List Value) : (vs.map value).mapM value? = some vs := by
  induction vs with
  | nil => rfl
  | cons v vs ih =>
    rw [List.map_cons, List.mapM_cons, ih]
    rfl

end Datum

/-! ### Functions -/

namespace Chunk

variable {hosts : Hosts}

/-- The functions that every chunk can call on data of other kinds too. -/
def generalFunctions : List String := ["get_timer", "get_entity", "-", "type_of", "is_shared"]

/-- A function on values does what it does for expressions. -/
theorem serves_native {name : String} {vs : List Value} {r : Except EvalError Value}
    (hname : name ∉ generalFunctions) (h : pureNative hosts name vs = some r) :
    Serves hosts (native name (vs.map .value)) Datum.value r := by
  have hnative : native name (vs.map .value) = (do
      let values ← ofOption ((vs.map Datum.value).mapM Datum.value?)
      let result ← ofOption (pureNative (← get) name values)
      return .value (← ofExcept result)) := by
    unfold native
    split <;> first | rfl | exact absurd (by decide) hname
  rw [hnative, Datum.mapM_value?]
  have hresult : ((do
      let values ← ofOption (some vs)
      let result ← ofOption (pureNative (← get) name values)
      return .value (← ofExcept result) : Run Datum)).run.run hosts =
        ((do return Datum.value (← ofExcept r) : Run Datum)).run.run hosts := by
    change ((do
      let result ← ofOption (pureNative hosts name vs)
      return .value (← ofExcept result) : Run Datum)).run.run hosts = _
    rw [h]
    rfl
  unfold Serves
  rw [hresult]
  cases r with
  | error e => exact fun _ => rfl
  | ok v => rfl

end Chunk

end Barrage
