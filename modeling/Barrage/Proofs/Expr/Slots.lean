import Barrage.Expr.Code
import Barrage.Proofs.Expr.WellTyped

/-!
# Slots in the place of names

Compiled code reads slots of a frame where the tree reads names of an environment. The frame is never cut
back when a binding goes out of scope, so it may hold more than the environment does; what matters is that
its lowest slots hold the environment, the outermost name in slot zero. A binding cuts the frame back to
the slots in use before it puts its value on top, and everything else leaves those slots alone. So this
relation, kept by every step, ties the two evaluators together.

## Main definitions

* `Frame.Holds` — the lowest slots of a frame hold an environment
* `Code.Agrees` — code over a frame and a tree over an environment end alike

## Main results

* `Code.run_agrees` — code runs to what its tree evaluates to, value or error
* `Expr.exists_compile` — a well-typed tree can be compiled
-/

namespace Barrage

open Barrage.Expr (Env Scope)

/-- The lowest slots of a frame hold the values of an environment, the outermost first. -/
def Frame.Holds (frame : Frame) (env : Env) : Prop :=
  frame.take env.length = (env.map Prod.snd).reverse

namespace Frame.Holds

variable {frame : Frame} {env : Env} {name : String} {value : Value}

/-- A slot in use holds the entry of the environment that lies as many places inward. -/
theorem getElem? (h : frame.Holds env) {back : Nat} (hback : back < env.length) :
    frame[env.length - 1 - back]? = (env.map Prod.snd)[back]? := by
  have hlt : env.length - 1 - back < env.length := by omega
  rw [← List.getElem?_take_of_lt hlt, h, List.getElem?_reverse (by simpa using hlt)]
  congr 1
  rw [List.length_map]
  omega

/-- A new binding goes into the slot above those in use; what lay there is dropped. -/
theorem bind (h : frame.Holds env) :
    Frame.Holds (frame.take env.length ++ [value]) ((name, value) :: env) := by
  have hlen : (frame.take env.length).length = env.length := by
    rw [h]
    simp
  rw [Holds, List.length_cons, List.take_of_length_le (by simp [hlen]), h]
  simp

/-- What holds an environment holds what it was before its last binding. -/
theorem unbind (h : frame.Holds ((name, value) :: env)) : frame.Holds env := by
  have hcut := congrArg (List.take env.length) h
  rw [List.length_cons, List.take_take, Nat.min_eq_left (Nat.le_succ _)] at hcut
  rw [Holds, hcut, List.map_cons, List.reverse_cons, List.take_append_of_le_length (by simp),
    List.take_of_length_le (by simp)]

end Frame.Holds

namespace Expr

variable {env : Env} {name : String}

/-- Names are found in an environment where they are found among its names. -/
theorem lookup_eq_getElem? {back : Nat} (h : (env.map Prod.fst).idxOf? name = some back) :
    back < env.length ∧ env.lookup name = (env.map Prod.snd)[back]? := by
  induction env generalizing back with
  | nil => simp at h
  | cons x env ih =>
    obtain ⟨x, value⟩ := x
    rw [List.map_cons, List.idxOf?_cons] at h
    by_cases hx : x = name
    · subst hx
      simp at h
      subst h
      simp
    · have hne : (name == x) = false := by simpa using fun h => hx h.symm
      simp only [beq_eq_false_iff_ne.2 hx, Bool.false_eq_true, if_false, Option.map_eq_some_iff] at h
      obtain ⟨inner, hinner, rfl⟩ := h
      obtain ⟨hlt, hlookup⟩ := ih hinner
      exact ⟨by simpa using hlt, by simpa [List.lookup_cons, hne] using hlookup⟩

/-- The slot of a name holds its value. -/
theorem getElem?_slot {frame : Frame} {index : Nat} (hframe : frame.Holds env)
    (h : slot? (env.map Prod.fst) name = some index) :
    ∃ value, env.lookup name = some value ∧ frame[index]? = some value := by
  obtain ⟨back, hback, rfl⟩ := Option.map_eq_some_iff.1 h
  obtain ⟨hlt, hlookup⟩ := lookup_eq_getElem? hback
  obtain ⟨value, hvalue⟩ : ∃ value, (env.map Prod.snd)[back]? = some value :=
    ⟨_, List.getElem?_eq_getElem (by simpa using hlt)⟩
  refine ⟨value, hlookup.trans hvalue, ?_⟩
  rw [List.length_map]
  exact (hframe.getElem? hlt).trans hvalue

theorem compileList_eq_ok_iff {scope : List String} {es : List Expr} {codes : List Code} :
    compileList scope es = .ok codes ↔
      List.Forall₂ (fun e code => compile scope e = .ok code) es codes := by
  induction es generalizing codes with
  | nil => simp [compileList, eq_comm]
  | cons e es ih =>
    simp only [compileList, Except.bind_eq_ok_iff, ih, List.forall₂_cons_left_iff, Except.ok.injEq]
    constructor
    · rintro ⟨code, he, codes', hes, rfl⟩
      exact ⟨code, codes', he, hes, rfl⟩
    · rintro ⟨code, codes', he, hes, rfl⟩
      exact ⟨code, he, codes', hes, rfl⟩

end Expr

namespace Code

variable {α β : Type} {env : Env}

/-- A run over a frame and an evaluation over an environment end alike: in the same error, or in the same
result with a frame that still holds the environment. -/
def Agrees (env : Env) : Except EvalError (α × Frame) → Except EvalError α → Prop
  | .ok (a, frame), .ok b => a = b ∧ frame.Holds env
  | .error e, .error e' => e = e'
  | _, _ => False

theorem Agrees.bind {r : Except EvalError (α × Frame)} {s : Except EvalError α}
    {f : α × Frame → Except EvalError (β × Frame)} {g : α → Except EvalError β}
    (h : Agrees env r s) (hfg : ∀ a frame, frame.Holds env → Agrees env (f (a, frame)) (g a)) :
    Agrees env (r >>= f) (s >>= g) := by
  match r, s with
  | .ok (a, frame), .ok b =>
    obtain ⟨rfl, hframe⟩ := h
    exact hfg a frame hframe
  | .error e, .error e' => exact h
  | .ok _, .error _ => exact h.elim
  | .error _, .ok _ => exact h.elim

/-- An operation on values leaves the frame alone. -/
theorem Agrees.pure {frame : Frame} (hframe : frame.Holds env) (s : Except EvalError α) :
    Agrees env (s >>= fun a => .ok (a, frame)) s := by
  cases s with
  | error e => rfl
  | ok a => exact ⟨rfl, hframe⟩

/-- Agreement over an environment with one more binding is agreement over the one without. -/
theorem Agrees.unbind {name : String} {value : Value} {r : Except EvalError (α × Frame)}
    {s : Except EvalError α} (h : Agrees ((name, value) :: env) r s) : Agrees env r s := by
  match r, s with
  | .ok (a, frame), .ok b => exact ⟨h.1, h.2.unbind⟩
  | .error e, .error e' => exact h
  | .ok _, .error _ => exact h.elim
  | .error _, .ok _ => exact h.elim

variable {order : FloatOrder} {hosts : Hosts}

/-- A list of arguments agrees with a list of codes if the entries do. -/
theorem runList_agrees {args : List Expr} {codes : List Code} {frame : Frame}
    (h : List.Forall₂ (fun e code => ∀ frame : Frame, frame.Holds env →
      Agrees env (run order hosts code frame) (e.eval order hosts env)) args codes)
    (hframe : frame.Holds env) :
    Agrees env (runList order hosts codes frame) (Expr.evalList order hosts env args) := by
  induction h generalizing frame with
  | nil => exact ⟨rfl, hframe⟩
  | cons he _ ih =>
    exact (he frame hframe).bind fun v frame hframe => (ih hframe).bind fun vs frame hframe =>
      ⟨rfl, hframe⟩

/-- So do operands of which the first that equals `short` decides. -/
theorem runDeciding_agrees {args : List Expr} {codes : List Code} {frame : Frame} {short : Bool}
    (h : List.Forall₂ (fun e code => ∀ frame : Frame, frame.Holds env →
      Agrees env (run order hosts code frame) (e.eval order hosts env)) args codes)
    (hframe : frame.Holds env) :
    Agrees env (runDeciding order hosts short codes frame)
      (Expr.evalDeciding order hosts env short args) := by
  induction h generalizing frame with
  | nil => exact ⟨rfl, hframe⟩
  | cons he _ ih =>
    refine (he frame hframe).bind fun v frame hframe => ?_
    dsimp only
    cases v.toBool with
    | error e => rfl
    | ok b =>
      by_cases hb : b = short
      · simp only [Except.ok_bind, hb, if_true]
        exact ⟨rfl, hframe⟩
      · simp only [Except.ok_bind, hb, if_false]
        exact ih hframe

theorem run_call {func : Func} {codes : List Code} {frame : Frame} (hand : func ≠ .and)
    (hor : func ≠ .or) :
    run order hosts (call func codes) frame = (do
      let (values, frame) ← runList order hosts codes frame
      .ok (← func.apply values, frame)) := by
  cases func <;> first | contradiction | rfl

/-- Code runs to what its tree evaluates to, value or error, and keeps the slots in use. -/
theorem run_agrees {e : Expr} {code : Code} {frame : Frame}
    (h : e.compile (env.map Prod.fst) = .ok code) (hframe : frame.Holds env) :
    Agrees env (code.run order hosts frame) (e.eval order hosts env) := by
  induction e using Expr.treeInduction generalizing code env frame with
  | const value =>
    cases h
    exact ⟨rfl, hframe⟩
  | var name =>
    rw [Expr.compile] at h
    split at h
    · rename_i index hslot
      cases h
      obtain ⟨value, hlookup, hvalue⟩ := Expr.getElem?_slot hframe hslot
      rw [run, Expr.eval, hvalue, hlookup]
      exact ⟨rfl, hframe⟩
    · cases h
  | member inner field ih =>
    obtain ⟨inner', hinner, h⟩ := Except.bind_eq_ok_iff.1 h
    cases h
    exact (ih hinner hframe).bind fun v frame hframe => .pure hframe _
  | unary op inner ih =>
    obtain ⟨inner', hinner, h⟩ := Except.bind_eq_ok_iff.1 h
    cases h
    exact (ih hinner hframe).bind fun v frame hframe => .pure hframe _
  | binary op left right ihl ihr =>
    obtain ⟨left', hl, h⟩ := Except.bind_eq_ok_iff.1 h
    obtain ⟨right', hr, h⟩ := Except.bind_eq_ok_iff.1 h
    cases h
    exact (ihl hl hframe).bind fun v frame hframe => (ihr hr hframe).bind fun w frame hframe =>
      .pure hframe _
  | branch cond yes no ihc ihy ihn =>
    obtain ⟨cond', hc, h⟩ := Except.bind_eq_ok_iff.1 h
    obtain ⟨yes', hy, h⟩ := Except.bind_eq_ok_iff.1 h
    obtain ⟨no', hn, h⟩ := Except.bind_eq_ok_iff.1 h
    cases h
    refine (ihc hc hframe).bind fun v frame hframe => ?_
    dsimp only
    cases v.toBool with
    | error e => rfl
    | ok b =>
      cases b
      · exact ihn hn hframe
      · exact ihy hy hframe
  | bind name value body ihv ihb =>
    obtain ⟨value', hv, h⟩ := Except.bind_eq_ok_iff.1 h
    obtain ⟨body', hb, h⟩ := Except.bind_eq_ok_iff.1 h
    cases h
    refine (ihv hv hframe).bind fun v frame hframe => ?_
    rw [List.length_map]
    have hbody : Agrees ((name, v) :: env) (run order hosts body' (frame.take env.length ++ [v]))
        (body.eval order hosts ((name, v) :: env)) := ihb hb hframe.bind
    exact hbody.unbind
  | call func args ih =>
    obtain ⟨args', hargs, h⟩ := Except.bind_eq_ok_iff.1 h
    cases h
    have hagree := (Expr.compileList_eq_ok_iff.1 hargs).imp_of_mem fun e code he hcode =>
      fun (frame : Frame) (hframe : frame.Holds env) => ih e he hcode hframe
    by_cases hand : func = .and
    · subst hand
      exact (runDeciding_agrees hagree hframe).bind fun b frame hframe => ⟨rfl, hframe⟩
    by_cases hor : func = .or
    · subst hor
      exact (runDeciding_agrees hagree hframe).bind fun b frame hframe => ⟨rfl, hframe⟩
    rw [run_call hand hor, Expr.eval_call hand hor]
    exact (runList_agrees hagree hframe).bind fun values frame hframe => .pure hframe _

end Code

namespace Expr

theorem exists_slot {scope : List String} {name : String} (h : name ∈ scope) :
    ∃ index, slot? scope name = some index := by
  obtain ⟨back, hback⟩ := Option.isSome_iff_exists.1 (List.isSome_idxOf?.2 h)
  exact ⟨scope.length - 1 - back, by rw [slot?, hback, Option.map_some]⟩

theorem mem_of_lookup {scope : Scope} {name : String} {ty : ValueType}
    (h : scope.lookup name = some ty) : name ∈ scope.map Prod.fst := by
  obtain ⟨before, after, rfl, -⟩ := List.lookup_eq_some_iff.1 h
  simp

/-- A tree with a type has a slot for every name, so it can be compiled. -/
theorem exists_compile {e : Expr} {scope : Scope} {ty : ValueType}
    (h : inferIn scope e = .ok ty) : ∃ code, compile (scope.map Prod.fst) e = .ok code := by
  induction e using treeInduction generalizing scope ty with
  | const value => exact ⟨_, rfl⟩
  | var name =>
    obtain ⟨index, hslot⟩ := exists_slot (mem_of_lookup (inferIn_var.1 h))
    exact ⟨_, by rw [compile, hslot]⟩
  | member inner field ih =>
    obtain ⟨t, hinner, -⟩ := inferIn_member.1 h
    obtain ⟨code, hcode⟩ := ih hinner
    exact ⟨_, by rw [compile, hcode]; rfl⟩
  | unary op inner ih =>
    obtain ⟨t, hinner, -⟩ := inferIn_unary.1 h
    obtain ⟨code, hcode⟩ := ih hinner
    exact ⟨_, by rw [compile, hcode]; rfl⟩
  | binary op left right ihl ihr =>
    obtain ⟨l, r, hl, hr, -⟩ := inferIn_binary.1 h
    obtain ⟨left', hleft⟩ := ihl hl
    obtain ⟨right', hright⟩ := ihr hr
    exact ⟨_, by rw [compile, hleft, hright]; rfl⟩
  | branch cond yes no ihc ihy ihn =>
    obtain ⟨hc, hy, hn⟩ := inferIn_branch.1 h
    obtain ⟨cond', hcond⟩ := ihc hc
    obtain ⟨yes', hyes⟩ := ihy hy
    obtain ⟨no', hno⟩ := ihn hn
    exact ⟨_, by rw [compile, hcond, hyes, hno]; rfl⟩
  | bind name value body ihv ihb =>
    obtain ⟨t, hv, hb⟩ := inferIn_bind.1 h
    obtain ⟨value', hvalue⟩ := ihv hv
    obtain ⟨body', hbody⟩ := ihb hb
    rw [List.map_cons] at hbody
    exact ⟨_, by rw [compile, hvalue, Except.ok_bind, hbody]; rfl⟩
  | call func args ih =>
    obtain ⟨tys, hargs, -⟩ := inferIn_call.1 h
    obtain ⟨codes, hcodes⟩ : ∃ codes, compileList (scope.map Prod.fst) args = .ok codes := by
      clear h
      induction hargs with
      | nil => exact ⟨[], rfl⟩
      | @cons e ty es tys he _ ihes =>
        obtain ⟨code, hcode⟩ := ih e (by simp) he
        obtain ⟨codes, hcodes⟩ := ihes fun e he => ih e (by simp [he])
        exact ⟨code :: codes, by rw [compileList, hcode, hcodes]; rfl⟩
    exact ⟨_, by rw [compile, hcodes]; rfl⟩

end Expr

end Barrage
