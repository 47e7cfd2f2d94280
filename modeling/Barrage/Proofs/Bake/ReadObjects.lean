import Barrage.Proofs.Bake.UnitCalls
import Barrage.Proofs.Expr.Readers

/-!
# Objects that source names

A text is read over host objects, since the readers look objects up as they meet their names. Over hosts with
the same entities the same text gives the same tree, up to the places of the timers, or the same fault: a timer
is found or made in any case, and no reader asks which. A tree that was read holds the objects that are found
afterwards. Both go by one induction over the readers, which carries a relation between what two runs of a
reader give; the relation speaks of the hosts after the first run, and later hosts only have more timers.

## Main definitions

* `Hosts.Grows` — later hosts, with more timers
* `Expr.Alike` — trees that may hold different handles for the same names
* `Expr.Parse.Corresponds` — two readers over hosts with the same entities

## Main results

* `Expr.Reading.nested_read` — a reader over two hosts
* `Expr.parseIn_read` — a text over two hosts
* `Expr.objectsHeld_of_parse` — the objects of a tree are found afterwards
* `Expr.Alike.unitLines_eq`, `Expr.Alike.check_eq` — alike trees are printed and checked alike
-/

namespace Barrage

/-! ### Later hosts -/

namespace Hosts

/-- Later hosts: there may be more timers. -/
structure Grows (hosts later : Hosts) : Prop where
  entities : later.entities = hosts.entities
  timers : ∃ more, later.timers = hosts.timers ++ more

variable {hosts later last : Hosts} {name : String} {slot : Nat}

theorem Grows.refl (hosts : Hosts) : hosts.Grows hosts := ⟨rfl, [], (List.append_nil _).symm⟩

theorem Grows.trans (h : hosts.Grows later) (h' : later.Grows last) : hosts.Grows last := by
  obtain ⟨more, hmore⟩ := h.timers
  obtain ⟨more', hmore'⟩ := h'.timers
  exact ⟨h'.entities.trans h.entities, more ++ more', by rw [hmore', hmore, List.append_assoc]⟩

theorem Grows.entity? (h : hosts.Grows later) (id : String) : later.entity? id = hosts.entity? id := by
  unfold Hosts.entity?
  rw [h.entities]

/-- A timer that is found is found at the same place later. -/
theorem Grows.timerSlot? (h : hosts.Grows later) (hslot : hosts.timerSlot? name = some slot) :
    later.timerSlot? name = some slot := by
  obtain ⟨more, hmore⟩ := h.timers
  unfold Hosts.timerSlot? at hslot ⊢
  rw [hmore, List.findIdx?_append, hslot]
  rfl

theorem grows_timer (hosts : Hosts) (name : String) : hosts.Grows (hosts.timer name).2 := by
  unfold timer
  split
  · exact .refl hosts
  · exact ⟨rfl, _, rfl⟩

/-- A timer that is looked up is found. -/
theorem timerSlot?_timer (hosts : Hosts) (name : String) :
    (hosts.timer name).2.timerSlot? (hosts.timer name).1.name = some (hosts.timer name).1.slot := by
  unfold timer
  split
  · assumption
  · rename_i hnone
    unfold timerSlot? at hnone ⊢
    rw [List.findIdx?_append, hnone]
    simp [Timer.new]

theorem name_timer (hosts : Hosts) (name : String) : (hosts.timer name).1.name = name := by
  unfold timer
  split <;> rfl

theorem id_of_entity? {id : String} {handle : EntityHandle} (h : hosts.entity? id = some handle) :
    handle.id = id := by
  obtain ⟨_, -, rfl⟩ := Option.map_eq_some_iff.1 h
  rfl

end Hosts

namespace Expr

/-! ### Trees -/

/-- Trees that may hold different handles for the same names: they have the same lookups in the same places,
and the same type in every scope. -/
structure Alike (e e' : Expr) : Prop where
  hoist : ∀ found, hoistWith e found = hoistWith e' found
  type : ∀ scope, inferIn scope e = inferIn scope e'

namespace Alike

variable {left left' right right' cond cond' yes yes' no no' inner inner' : Expr}

theorem refl (e : Expr) : Alike e e := ⟨fun _ => rfl, fun _ => rfl⟩

theorem timer {handle handle' : TimerHandle} (h : handle.name = handle'.name) :
    Alike (.const (.timer handle)) (.const (.timer handle')) := by
  refine ⟨fun found => ?_, fun _ => rfl⟩
  rw [hoistWith, hoistWith, h]

theorem member (h : Alike inner inner') (field : Member) : Alike (.member inner field) (.member inner' field) :=
  ⟨fun found => by simp only [hoistWith, h.hoist], fun scope => by simp only [inferIn, h.type]⟩

theorem unary (op : UnOp) (h : Alike inner inner') : Alike (.unary op inner) (.unary op inner') :=
  ⟨fun found => by simp only [hoistWith, h.hoist], fun scope => by simp only [inferIn, h.type]⟩

theorem binary (op : BinOp) (hl : Alike left left') (hr : Alike right right') :
    Alike (.binary op left right) (.binary op left' right') :=
  ⟨fun found => by simp only [hoistWith, hl.hoist, hr.hoist], fun scope => by simp only [inferIn, hl.type, hr.type]⟩

theorem branch (hc : Alike cond cond') (hy : Alike yes yes') (hn : Alike no no') :
    Alike (.branch cond yes no) (.branch cond' yes' no') :=
  ⟨fun found => by simp only [hoistWith, hc.hoist, hy.hoist, hn.hoist],
    fun scope => by simp only [inferIn, hc.type, hy.type, hn.type]⟩

theorem bind (name : String) (hv : Alike left left') (hb : Alike right right') :
    Alike (.bind name left right) (.bind name left' right') :=
  ⟨fun found => by simp only [hoistWith, hv.hoist, hb.hoist], fun scope => by simp only [inferIn, hv.type, hb.type]⟩

theorem call (func : Func) {args args' : List Expr} (h : List.Forall₂ Alike args args') :
    Alike (.call func args) (.call func args') := by
  have hlists : (∀ found, hoistList args found = hoistList args' found) ∧
      ∀ scope, inferList scope args = inferList scope args' := by
    induction h with
    | nil => exact ⟨fun _ => rfl, fun _ => rfl⟩
    | cons he _ ih =>
      exact ⟨fun found => by simp only [hoistList, he.hoist, ih.1],
        fun scope => by simp only [inferList, he.type, ih.2]⟩
  exact ⟨fun found => by simp only [hoistWith, hlists.1], fun scope => by simp only [inferIn, hlists.2]⟩

theorem operator (op : Operator) (hl : Alike left left') (hr : Alike right right') :
    Alike (op.apply left right) (op.apply left' right') := by
  cases op with
  | op o => exact binary o hl hr
  | func f => exact call f (.cons hl (.cons hr .nil))

/-- What is hoisted to a constant is that constant. -/
theorem eq_const (h : Alike inner inner') {value : Value} (hvalue : value.object? = none)
    (hinner : inner = .const value) : inner' = .const value := by
  have hhoist : hoistWith inner' [] = (.const value, []) := by
    rw [← h.hoist, hinner]
    cases value <;> first | rfl | cases hvalue
  cases inner' with
  | const value' =>
    cases value' with
    | timer handle => cases hhoist
    | entity handle => cases hhoist
    | _ => exact congrArg Prod.fst hhoist
  | _ => cases hhoist

theorem symm (h : Alike inner inner') : Alike inner' inner :=
  ⟨fun found => (h.hoist found).symm, fun scope => (h.type scope).symm⟩

theorem negated (h : Alike inner inner') : Alike (negated inner) (negated inner') := by
  by_cases hnumber : ∃ value : Value, value.object? = none ∧ inner = .const value
  · obtain ⟨value, hvalue, hinner⟩ := hnumber
    rw [h.eq_const hvalue hinner, hinner]
    exact refl _
  · have hunary : Expr.negated inner = .unary .neg inner := by
      unfold Expr.negated
      split
      · exact absurd ⟨_, rfl, rfl⟩ hnumber
      · exact absurd ⟨_, rfl, rfl⟩ hnumber
      · rfl
    have hunary' : Expr.negated inner' = .unary .neg inner' := by
      unfold Expr.negated
      split
      · exact absurd ⟨_, rfl, h.symm.eq_const rfl rfl⟩ hnumber
      · exact absurd ⟨_, rfl, h.symm.eq_const rfl rfl⟩ hnumber
      · rfl
    rw [hunary, hunary']
    exact unary .neg h

end Alike

/-! ### Objects that are held -/

theorem Held.grows {hosts later : Hosts} (h : hosts.Grows later) {v : Value} (hv : Held hosts v) :
    Held later v := by
  cases v with
  | timer handle => exact h.timerSlot? hv
  | entity handle => exact (h.entity? handle.id).trans hv
  | _ => trivial

namespace ObjectsHeld

variable {hosts later : Hosts} {e left right cond yes no value body : Expr}

theorem grows (he : e.ObjectsHeld hosts) (h : hosts.Grows later) : e.ObjectsHeld later :=
  fun v hv => (he v hv).grows h

theorem const {value : Value} (h : Held hosts value) : ObjectsHeld hosts (.const value) := by
  intro v hv
  unfold objects at hv
  split at hv
  · rwa [List.mem_singleton.1 hv]
  · cases hv

theorem binary (op : BinOp) (hl : left.ObjectsHeld hosts) (hr : right.ObjectsHeld hosts) :
    (Expr.binary op left right).ObjectsHeld hosts := List.forall_mem_append.2 ⟨hl, hr⟩

theorem branch (hc : cond.ObjectsHeld hosts) (hy : yes.ObjectsHeld hosts) (hn : no.ObjectsHeld hosts) :
    (Expr.branch cond yes no).ObjectsHeld hosts :=
  List.forall_mem_append.2 ⟨List.forall_mem_append.2 ⟨hc, hy⟩, hn⟩

theorem bind (name : String) (hv : value.ObjectsHeld hosts) (hb : body.ObjectsHeld hosts) :
    (Expr.bind name value body).ObjectsHeld hosts := List.forall_mem_append.2 ⟨hv, hb⟩

theorem call (func : Func) {args : List Expr} (h : ∀ e ∈ args, e.ObjectsHeld hosts) :
    (Expr.call func args).ObjectsHeld hosts := by
  intro v hv
  obtain ⟨e, he, hv⟩ := List.mem_flatMap.1 (objectsList_eq_flatMap args ▸ (show v ∈ objectsList args from hv))
  exact h e he v hv

theorem operator (op : Operator) (hl : left.ObjectsHeld hosts) (hr : right.ObjectsHeld hosts) :
    (op.apply left right).ObjectsHeld hosts := by
  cases op with
  | op o => exact binary o hl hr
  | func f => exact call f (List.forall_mem_cons.2 ⟨hl, List.forall_mem_singleton.2 hr⟩)

theorem negated (h : e.ObjectsHeld hosts) : (negated e).ObjectsHeld hosts := by
  unfold Expr.negated
  split
  · exact const trivial
  · exact const trivial
  · exact h

end ObjectsHeld

/-! ### Readers over two hosts -/

namespace Parse

variable {α α' β β' : Type} {base : Hosts} {R : Hosts → α → α' → Prop} {S : Hosts → β → β' → Prop}

/-- Two readers over hosts with the same entities, of which the first are later than some others: they give
results that stand in a relation, or the same fault. -/
def Corresponds (base : Hosts) (R : Hosts → α → α' → Prop) (p : Parse α) (q : Parse α') : Prop :=
  ∀ hosts hosts' : Hosts, base.Grows hosts → hosts'.entities = hosts.entities →
    ∃ later later' : Hosts, hosts.Grows later ∧ later'.entities = later.entities ∧
      ((∃ a a', p.run.run hosts = (.ok a, later) ∧ q.run.run hosts' = (.ok a', later') ∧ R later a a') ∨
        ∃ e, p.run.run hosts = (.error e, later) ∧ q.run.run hosts' = (.error e, later'))

theorem corresponds_pure {a : α} {a' : α'} (h : ∀ later, base.Grows later → R later a a') :
    Corresponds base R (pure a) (pure a') :=
  fun hosts hosts' hgrows hentities =>
    ⟨hosts, hosts', .refl hosts, hentities, .inl ⟨a, a', rfl, rfl, h hosts hgrows⟩⟩

theorem corresponds_throw {e : ParseError} : Corresponds base R (throw e) (throw e) :=
  fun hosts hosts' _ hentities => ⟨hosts, hosts', .refl hosts, hentities, .inr ⟨e, rfl, rfl⟩⟩

theorem corresponds_fail {i : Input} {fault : ParseFault} : Corresponds base R (i.fail fault) (i.fail fault) :=
  corresponds_throw

/-- Sequencing: what follows may rely on what relates the first results. -/
theorem Corresponds.bind {p : Parse α} {q : Parse α'} {f : α → Parse β} {g : α' → Parse β'}
    (hpq : Corresponds base R p q)
    (hfg : ∀ later, base.Grows later → ∀ a a', R later a a' → Corresponds later S (f a) (g a')) :
    Corresponds base S (p >>= f) (q >>= g) := by
  intro hosts hosts' hgrows hentities
  obtain ⟨later, later', hlater, hentities', ⟨a, a', hp, hq, hR⟩ | ⟨e, hp, hq⟩⟩ := hpq hosts hosts' hgrows hentities
  · obtain ⟨last, last', hlast, hentities'', hresult⟩ :=
      hfg later (hgrows.trans hlater) a a' hR later later' (.refl later) hentities'
    refine ⟨last, last', hlater.trans hlast, hentities'', ?_⟩
    rw [run_bind_of_ok hp, run_bind_of_ok hq]
    exact hresult
  · refine ⟨later, later', hlater, hentities', .inr ⟨e, ?_, ?_⟩⟩
    · rw [run_bind_of_error hp]
    · rw [run_bind_of_error hq]

theorem Corresponds.bind_same {p : Parse α} {f : α → Parse β} {g : α → Parse β'}
    (hp : Corresponds base (fun _ a a' => a = a') p p)
    (hfg : ∀ later, base.Grows later → ∀ a, Corresponds later S (f a) (g a)) :
    Corresponds base S (p >>= f) (p >>= g) := by
  refine hp.bind fun later hgrows a a' heq => ?_
  subst heq
  exact hfg later hgrows a

/-- Readers that look no objects up. -/
theorem corresponds_expect (i : Input) (s : Symbol) :
    Corresponds base (fun _ j j' => j = j') (i.expect s) (i.expect s) := by
  unfold Input.expect
  split
  · exact corresponds_pure fun _ _ => rfl
  · exact corresponds_fail

theorem corresponds_checkedName (name : String) (offset : Nat) :
    Corresponds base (fun _ x x' => x = x') (checkedName name offset) (checkedName name offset) := by
  unfold checkedName
  split
  · exact corresponds_throw
  split
  · exact corresponds_throw
  · exact corresponds_pure fun _ _ => rfl

theorem corresponds_keyArgument (i : Input) :
    Corresponds base (fun _ r r' => r = r') (keyArgument i) (keyArgument i) := by
  unfold keyArgument
  refine (corresponds_expect i .opening).bind_same fun later _ i => ?_
  split
  · refine (corresponds_expect _ .closing).bind_same fun later _ i => ?_
    exact corresponds_pure fun _ _ => rfl
  · exact corresponds_fail

/-- A timer is found or made; its handle has its name. -/
theorem corresponds_timer (name : String) :
    Corresponds base (fun later handle handle' => Held later (.timer handle) ∧ handle.name = handle'.name)
      (modifyGet fun hosts => hosts.timer name) (modifyGet fun hosts => hosts.timer name) :=
  fun hosts hosts' _ hentities => ⟨_, _, hosts.grows_timer name,
    ((hosts'.grows_timer name).entities.trans hentities).trans (hosts.grows_timer name).entities.symm,
    .inl ⟨_, _, rfl, rfl, hosts.timerSlot?_timer name, (hosts.name_timer name).trans (hosts'.name_timer name).symm⟩⟩

theorem corresponds_get :
    Corresponds base (fun later hosts hosts' => hosts.Grows later ∧ hosts'.entities = hosts.entities) get get :=
  fun hosts hosts' _ hentities =>
    ⟨hosts, hosts', .refl hosts, hentities, .inl ⟨hosts, hosts', rfl, rfl, .refl hosts, hentities⟩⟩

end Parse

namespace Reading

/-- What two runs of a reader hand over: alike trees, the first of which holds the objects that are found, and
the same rest of the input. -/
structure Read (hosts : Hosts) (r r' : Expr × Input) : Prop where
  rest : r.2 = r'.2
  alike : r.1.Alike r'.1
  held : r.1.ObjectsHeld hosts

end Reading

open Reading

theorem Parse.Corresponds.bind_read {β β' : Type} {base : Hosts} {S : Hosts → β → β' → Prop}
    {p : Parse (Expr × Input)} {f : Expr × Input → Parse β} {g : Expr × Input → Parse β'}
    (hp : Corresponds base Read p p) (hfg : ∀ later, base.Grows later → ∀ e e' i, e.Alike e' →
      e.ObjectsHeld later → Corresponds later S (f (e, i)) (g (e', i))) :
    Corresponds base S (p >>= f) (p >>= g) := by
  refine hp.bind fun later hgrows r r' hr => ?_
  obtain ⟨e, i⟩ := r
  obtain ⟨e', i'⟩ := r'
  obtain ⟨rfl, halike, hheld⟩ := hr
  exact hfg later hgrows e e' i halike hheld

namespace Reading

open Parse

theorem corresponds_read {base : Hosts} {e e' : Expr} {i : Input} (halike : e.Alike e') (hheld : e.ObjectsHeld base) :
    Corresponds base Read (Pure.pure (e, i)) (Pure.pure (e', i)) :=
  corresponds_pure fun _ hgrows => ⟨rfl, halike, hheld.grows hgrows⟩

mutual

/-- A reader over two hosts. -/
theorem nested_read (room : Nat) (i : Input) (base : Hosts) :
    Corresponds base Read (nested room i) (nested room i) := by
  unfold nested
  cases room with
  | zero => exact corresponds_fail
  | succ room =>
    intro hosts hosts' hgrows hentities
    exact body_read room i base hosts hosts' hgrows hentities
termination_by (room, 0, 0)

theorem body_read (room : Nat) (i : Input) (base : Hosts) :
    Corresponds base Read (body room i) (body room i) := by
  unfold body
  dsimp only
  split
  · split
    · refine (corresponds_checkedName _ _).bind_same fun later₁ _ name => ?_
      refine (corresponds_expect _ .assign).bind_same fun later₂ _ i => ?_
      refine (nested_read room i later₂).bind_read fun later₃ _ value value' i hvalue hheld => ?_
      split
      · refine (nested_read room _ later₃).bind_read fun later₄ hgrows rest rest' j hrest hheld' => ?_
        exact corresponds_read (hvalue.bind name hrest) (.bind name (hheld.grows hgrows) hheld')
      · exact corresponds_fail
    · exact corresponds_fail
  · refine (level_read Operator.levels room i base).bind_read fun later₁ _ cond cond' i hcond hheld => ?_
    dsimp only
    split
    · exact corresponds_read hcond hheld
    · refine (nested_read room _ later₁).bind_read fun later₂ hgrows₂ yes yes' j hyes hheld' => ?_
      refine (corresponds_expect _ .colon).bind_same fun later₃ hgrows₃ i => ?_
      refine (nested_read room i later₃).bind_read fun later₄ hgrows₄ no no' k hno hheld'' => ?_
      have hgrows := hgrows₃.trans hgrows₄
      exact corresponds_read (hcond.branch hyes hno)
        (.branch (hheld.grows (hgrows₂.trans hgrows)) (hheld'.grows hgrows) hheld'')
termination_by (room, Operator.levels + 6, 0)

theorem level_read (above room : Nat) (i : Input) (base : Hosts) :
    Corresponds base Read (level above room i) (level above room i) := by
  unfold level
  split
  · exact signed_read room i base
  · rename_i tight
    refine (level_read tight room i base).bind_read fun later _ left left' i hleft hheld => ?_
    exact chain_read tight room i hleft hheld
termination_by (room, above + 5, 0)

theorem chain_read (tight room : Nat) (i : Input) {left left' : Expr} {base : Hosts} (hleft : left.Alike left')
    (hheld : left.ObjectsHeld base) : Corresponds base Read (chain tight room left i) (chain tight room left' i) := by
  unfold chain
  split
  · exact corresponds_read hleft hheld
  · rename_i op i _
    cases room with
    | zero => exact corresponds_fail
    | succ room =>
      refine (level_read tight room i base).bind_read fun later hgrows right right' j hright hheld' => ?_
      exact chain_read tight room j (hleft.operator op hright) (.operator op (hheld.grows hgrows) hheld')
termination_by (room, 0, 0)

theorem signed_read (room : Nat) (i : Input) (base : Hosts) :
    Corresponds base Read (signed room i) (signed room i) := by
  unfold signed
  split
  · cases room with
    | zero => exact corresponds_fail
    | succ room =>
      refine (signed_read room _ base).bind_read fun later _ inner inner' j hinner hheld => ?_
      exact corresponds_read hinner.negated hheld.negated
  · split
    · cases room with
      | zero => exact corresponds_fail
      | succ room =>
        refine (signed_read room _ base).bind_read fun later _ inner inner' j hinner hheld => ?_
        exact corresponds_read (hinner.unary .not) hheld
    · refine (primary_read room i base).bind_read fun later _ inner inner' j hinner hheld => ?_
      exact members_read room j hinner hheld
termination_by (room, 4, 0)

theorem members_read (room : Nat) (i : Input) {inner inner' : Expr} {base : Hosts} (hinner : inner.Alike inner')
    (hheld : inner.ObjectsHeld base) : Corresponds base Read (members room inner i) (members room inner' i) := by
  unfold members
  split
  · exact corresponds_read hinner hheld
  · rename_i after _
    cases room with
    | zero => exact corresponds_fail
    | succ room =>
      simp only
      split
      · split
        · rename_i field _
          exact members_read room after.advance (hinner.member field) hheld
        · exact corresponds_fail
      · exact corresponds_fail
termination_by (room, 0, 0)

theorem primary_read (room : Nat) (i : Input) (base : Hosts) :
    Corresponds base Read (primary room i) (primary room i) := by
  unfold primary
  dsimp only
  split
  · exact corresponds_read (.refl _) (.const trivial)
  · exact corresponds_read (.refl _) (.const trivial)
  · refine (nested_read room _ base).bind_read fun later₁ _ inner inner' j hinner hheld => ?_
    refine (corresponds_expect _ .closing).bind_same fun later₂ hgrows j => ?_
    exact corresponds_read hinner (hheld.grows hgrows)
  · split
    · exact corresponds_read (.refl _) (.const trivial)
    split
    · exact corresponds_read (.refl _) (.const trivial)
    split
    · refine (corresponds_keyArgument _).bind_same fun later _ key => ?_
      refine (corresponds_timer key.1).bind fun later' hgrows handle handle' hhandle => ?_
      exact corresponds_read (.timer hhandle.2) (.const hhandle.1)
    split
    · refine (corresponds_keyArgument _).bind_same fun later _ key => ?_
      refine corresponds_get.bind fun later' _ hosts hosts' ⟨hgrows, hentities⟩ => ?_
      have hfound : hosts'.entity? key.1 = hosts.entity? key.1 := by
        unfold Hosts.entity?
        rw [hentities]
      rw [hfound]
      split
      · rename_i handle hhandle
        have hheld : hosts.entity? handle.id = some handle := by rwa [Hosts.id_of_entity? hhandle]
        exact corresponds_read (.refl _) (.const ((hgrows.entity? _).trans hheld))
      · exact corresponds_fail
    split
    · split
      · exact corresponds_fail
      · split
        · exact corresponds_read (.refl _) (.call _ (List.forall_mem_nil _))
        · refine (arguments_read room _ base).bind fun later _ args args' hargs => ?_
          obtain ⟨args, j⟩ := args
          obtain ⟨args', j'⟩ := args'
          obtain ⟨rfl, hargs, hheld⟩ := hargs
          exact corresponds_read (.call _ hargs) (.call _ hheld)
    · refine (corresponds_checkedName _ _).bind_same fun later _ name => ?_
      exact corresponds_read (.refl _) (List.forall_mem_nil _)
  · exact corresponds_fail
termination_by (room, 2, 0)

theorem arguments_read (room : Nat) (i : Input) (base : Hosts) :
    Corresponds base (fun hosts r r' => r.2 = r'.2 ∧ List.Forall₂ Alike r.1 r'.1 ∧ ∀ e ∈ r.1, e.ObjectsHeld hosts)
      (arguments room i) (arguments room i) := by
  unfold arguments
  refine (nested_read room i base).bind_read fun later₁ _ arg arg' rest harg hheld => ?_
  dsimp only
  split
  · exact corresponds_pure fun _ hgrows =>
      ⟨rfl, .cons harg .nil, List.forall_mem_singleton.2 (hheld.grows hgrows)⟩
  · refine (corresponds_expect _ .comma).bind_same fun later₂ hgrows₂ rest => ?_
    split
    · refine (arguments_read room rest later₂).bind fun later₃ hgrows₃ args args' hargs => ?_
      obtain ⟨args, j⟩ := args
      obtain ⟨args', j'⟩ := args'
      obtain ⟨rfl, hargs, hheld'⟩ := hargs
      exact corresponds_pure fun _ hgrows => ⟨rfl, .cons harg hargs, List.forall_mem_cons.2
        ⟨hheld.grows ((hgrows₂.trans hgrows₃).trans hgrows), fun e he => (hheld' e he).grows hgrows⟩⟩
    · exact corresponds_fail
termination_by (room, 1, i.tokens.length)

end

end Reading

/-- The same text over hosts with the same entities. -/
theorem parseIn_read {hosts hosts' : Hosts} (hentities : hosts'.entities = hosts.entities) (source : String) :
    ∃ later later' : Hosts, hosts.Grows later ∧ later'.entities = later.entities ∧
      ((∃ e e', parseIn hosts source = (.ok e, later) ∧ parseIn hosts' source = (.ok e', later') ∧
        e.Alike e' ∧ e.ObjectsHeld later) ∨
      ∃ fault, parseIn hosts source = (.error fault, later) ∧ parseIn hosts' source = (.error fault, later')) := by
  have hparse : Parse.Corresponds hosts (fun later e e' => e.Alike e' ∧ e.ObjectsHeld later)
      (parse source) (parse source) := by
    unfold parse
    split
    · exact Parse.corresponds_throw
    · refine (Reading.nested_read maxNesting _ hosts).bind_read fun later _ e e' i halike hheld => ?_
      dsimp only
      split
      · exact Parse.corresponds_pure fun _ hgrows => ⟨halike, hheld.grows hgrows⟩
      · exact Parse.corresponds_fail
  exact hparse hosts hosts' (.refl hosts) hentities

/-- Reading a text only adds timers. -/
theorem grows_parseIn (hosts : Hosts) (source : String) : hosts.Grows (parseIn hosts source).2 := by
  obtain ⟨later, -, hgrows, -, ⟨e, -, hparse, -⟩ | ⟨fault, hparse, -⟩⟩ := @parseIn_read hosts hosts rfl source
  · rwa [hparse]
  · rwa [hparse]

/-- A tree that was read holds the objects that are found afterwards. -/
theorem objectsHeld_of_parse {hosts : Hosts} {source : String} {e : Expr}
    (h : (parseIn hosts source).1 = .ok e) : e.ObjectsHeld (parseIn hosts source).2 := by
  obtain ⟨later, -, -, -, ⟨_, _, hparse, -, -, hheld⟩ | ⟨_, hparse, -⟩⟩ := @parseIn_read hosts hosts rfl source
  · rw [hparse] at h ⊢
    cases h
    exact hheld
  · rw [hparse] at h
    cases h

theorem Alike.unitLines_eq {e e' : Expr} (h : e.Alike e') : e.unitLines = e'.unitLines := by
  unfold unitLines linear Expr.hoist
  rw [h.hoist]

theorem Alike.check_eq {e e' : Expr} (h : e.Alike e') (params : List Param) (returns : ValueType) :
    e.check params returns = e'.check params returns := by
  unfold check infer
  rw [h.type]

end Expr

end Barrage
