import Barrage.Bake.Callable
import Barrage.Proofs.Expr.Slots

/-!
# Type soundness

A tree that the checker accepts can be compiled after flattening, and the callable never fails for a
reason that the checker should have found. Calling it with arguments of the declared types gives a value
of the declared type, or a division by zero, or an overflow of a whole number. In particular no operand
has a wrong type, no function a wrong number of arguments, and no slot is read outside of the frame.

Parameters may share a name, of which the last one counts, and bindings may hide parameters and each
other.

## Main results

* `Callable.checkArgs_eq_ok_iff` — which arguments pass the test of a callable
* `Callable.invoke_wellTyped` — type soundness of callables
-/

namespace Barrage

namespace Callable

theorem map_type_isPrefix_iff {params : List ValueType} {args : List Value} :
    args.map Value.type <+: params ↔
      args.length ≤ params.length ∧ ∀ p ∈ params.zip args, p.2.type = p.1 := by
  induction args generalizing params with
  | nil => simp
  | cons v args ih =>
    cases params with
    | nil => simp
    | cons ty params =>
      rw [List.map_cons, List.cons_prefix_cons, ih, List.zip_cons_cons, List.forall_mem_cons,
        List.length_cons, List.length_cons, Nat.add_le_add_iff_right]
      exact and_left_comm

/-- Values pass the test if they are no more than the parameters and have the types of the leading
ones. -/
theorem checkArgs_eq_ok_iff {params : List ValueType} {args : List Value} :
    checkArgs params args = .ok () ↔ args.map Value.type <+: params := by
  have hall : (∀ x ∈ (params.zip args).zipIdx, ¬ (x.1.2.type != x.1.1) = true) ↔
      ∀ p ∈ params.zip args, p.2.type = p.1 := by
    conv_rhs => rw [← List.zipIdx_map_fst 0 (params.zip args), List.forall_mem_map]
    exact forall₂_congr fun x _ => by simp
  rw [map_type_isPrefix_iff, ← hall, checkArgs]
  split
  · rename_i hmore
    exact iff_of_false nofun fun h => Nat.not_le_of_lt hmore h.1
  · rename_i hroom
    dsimp only
    split
    · rename_i hwrong
      have hdiffers := List.find?_some hwrong
      exact iff_of_false nofun fun h => h.2 _ (List.mem_of_find?_eq_some hwrong) hdiffers
    · rename_i hright
      exact iff_of_true rfl ⟨Nat.le_of_not_lt hroom, List.find?_eq_none.1 hright⟩

/-- Arguments of the declared types pass the test. -/
theorem checkArgs_eq_ok {params : List ValueType} {args : List Value}
    (h : args.map Value.type = params) : checkArgs params args = .ok () :=
  checkArgs_eq_ok_iff.2 (h ▸ List.prefix_rfl)

/-- Values that pass the test can be fixed. -/
theorem bindLeading_eq_ok {c : Callable} {values : List Value}
    (h : values.map Value.type <+: c.signature.params) :
    c.bindLeading values = .ok { c with
      signature := ⟨c.signature.params.drop values.length, c.signature.returns⟩
      bound := c.bound ++ values } := by
  rw [bindLeading, checkArgs_eq_ok_iff.2 h]
  rfl

end Callable

namespace Expr.Env

variable {params : List Param} {args : List Value}

theorem names_of (h : args.length = params.length) :
    (Env.of params args).map Prod.fst = (params.map (·.name)).reverse := by
  rw [Env.of, List.map_reverse, List.map_fst_zip (by simp [h])]

/-- The arguments of a call, as a frame, hold the environment of the parameters. -/
theorem holds_of (h : args.length = params.length) : Frame.Holds args (Env.of params args) := by
  rw [Frame.Holds, Env.of, List.map_reverse, List.map_snd_zip (by simp [h]), List.reverse_reverse]
  exact List.take_of_length_le (by simp [h])

/-- Arguments of the declared types are an environment of the scope of the parameters. -/
theorem typed_of (h : args.map Value.type = params.map (·.type)) :
    (Env.of params args).Typed (Scope.of params) := by
  rw [Typed, Env.of, Scope.of, List.forall₂_reverse_iff]
  induction params generalizing args with
  | nil => exact .nil
  | cons p params ih =>
    cases args with
    | nil => simp at h
    | cons v args =>
      simp only [List.map_cons, List.cons.injEq] at h
      exact .cons ⟨rfl, h.1⟩ (ih h.2)

end Expr.Env

/-- The code of a tree comes to what the tree does. -/
theorem Code.run_eq_eval {e : Expr} {params : List Param} {code : Code} {args : List Value}
    (hcode : e.compile (params.map (·.name)).reverse = .ok code) (hlength : args.length = params.length)
    (order : FloatOrder) (hosts : Hosts) :
    (code.run order hosts args).map Prod.fst = e.eval order hosts (Expr.Env.of params args) := by
  have hagrees : Code.Agrees (Expr.Env.of params args) (code.run order hosts args)
      (e.eval order hosts (Expr.Env.of params args)) :=
    Code.run_agrees (by rw [Expr.Env.names_of hlength]; exact hcode) (Expr.Env.holds_of hlength)
  generalize code.run order hosts args = r at hagrees
  generalize e.eval order hosts (Expr.Env.of params args) = s at hagrees
  match r, s, hagrees with
  | .ok (v, frame), .ok w, hagrees => exact congrArg Except.ok hagrees.1
  | .error err, .error err', hagrees => exact congrArg Except.error hagrees

namespace Callable

/-- A call with fitting arguments runs the body and tests the type of its result. -/
theorem invoke_eq {c : Callable} {args : List Value} (hosts : Hosts)
    (h : args.map Value.type = c.signature.params) :
    c.invoke args hosts =
      match runBody c.body (c.bound ++ args) hosts with
      | (.error e, hosts) => (.error e, hosts)
      | (.ok v, hosts) =>
        if v.type = c.signature.returns then (.ok v, hosts)
        else (.error (.returnType c.signature.returns v.type.name), hosts) := by
  have hlen : args.length = c.signature.params.length := by simp [← h]
  have hcheck := checkArgs_eq_ok h
  have hinvoke := invoke.eq_def c args hosts
  rw [if_neg (by simpa using hlen), hcheck] at hinvoke
  exact hinvoke

/-- Type soundness: the callable of an accepted tree exists, and on arguments of the declared types it
gives a value of the declared type or ends in an arithmetic fault. -/
theorem invoke_wellTyped {e : Expr} {params : List Param} {ty : ValueType}
    (h : e.infer params = .ok ty) :
    ∃ c, Callable.ofExpr e.flatten params ty = .ok c ∧
      ∀ (args : List Value) (hosts : Hosts), args.map Value.type = params.map (·.type) →
        ∃ r, c.invoke args hosts = (r, hosts) ∧
          ((∃ v, r = .ok v ∧ v.type = ty) ∨ r = .error .divideByZero ∨
            ∃ operation, r = .error (.overflow operation)) := by
  have hflat : Expr.inferIn (Expr.Scope.of params) e.flatten = .ok ty := Expr.inferIn_flatten h
  have hnames : (Expr.Scope.of params).map Prod.fst = (params.map (·.name)).reverse := by
    simp [Expr.Scope.of, List.map_reverse]
  obtain ⟨code, hcode⟩ := Expr.exists_compile hflat
  rw [hnames] at hcode
  refine ⟨_, by rw [ofExpr, hcode, Except.ok_bind], fun args hosts hargs => ?_⟩
  have hlen : args.length = params.length := by simpa using congrArg List.length hargs
  -- The code ends as the tree does, and the tree ends well.
  have hagree : Code.Agrees (Expr.Env.of params args) (code.run .exact hosts args)
      (e.flatten.eval .exact hosts (Expr.Env.of params args)) :=
    Code.run_agrees (by rw [Expr.Env.names_of hlen]; exact hcode) (Expr.Env.holds_of hlen)
  have hyields : Yields ty (e.flatten.eval .exact hosts (Expr.Env.of params args)) :=
    Expr.eval_yields hflat (Expr.Env.typed_of hargs)
  rw [invoke_eq hosts hargs]
  simp only [runBody, List.nil_append, Signature.of]
  generalize Expr.eval .exact hosts (Expr.Env.of params args) e.flatten = s at hagree hyields
  generalize code.run .exact hosts args = r at hagree
  match r, s, hagree with
  | .ok (v, frame), .ok w, hagree =>
    obtain ⟨rfl, -⟩ := hagree
    have hty : v.type = ty := hyields
    exact ⟨.ok v, by simp [Except.map, hty], .inl ⟨v, rfl, hty⟩⟩
  | .error err, .error err', hagree =>
    obtain rfl : err = err' := hagree
    refine ⟨.error err, by simp [Except.map], .inr ?_⟩
    cases err with
    | divideByZero => exact .inl rfl
    | overflow operation => exact .inr ⟨operation, rfl⟩
    | _ => exact hyields.elim

/-- Two parameters share a name, a binding hides them, and a chain of sums is joined. -/
theorem invoke_wellTyped_shadowing :
    let x : Expr := .var "x"
    let e : Expr := .bind "x" (.call .mul [x, x]) (.call .add [.call .add [x, x], x])
    let params : List Param := [⟨"x", .int⟩, ⟨"x", .float⟩]
    e.infer params = .ok .float ∧
      ∃ c, Callable.ofExpr e.flatten params .float = .ok c ∧
        [Value.int 1, .float 0.5].map Value.type = params.map (·.type) ∧
        ∃ r, c.invoke [.int 1, .float 0.5] {} = (r, {}) ∧
          ((∃ v, r = .ok v ∧ v.type = .float) ∨ r = .error .divideByZero ∨
            ∃ operation, r = .error (.overflow operation)) := by
  intro x e params
  have htype : e.infer params = .ok .float := by decide +kernel
  obtain ⟨c, hc, hinvoke⟩ := invoke_wellTyped htype
  exact ⟨htype, c, hc, rfl, hinvoke _ _ rfl⟩

end Callable

end Barrage
