import Barrage.Proofs.Expr.Hoisting

/-!
# Expressions over fewer timers

Of two host objects one may have timers that the other lacks, as timers come into being when they are asked for. If
the entities are the same and every timer that both have stands at the same time, an expression that names no object
itself does not tell them apart: over values that stand for the same objects it comes to values that do so again, or to
the same fault. The handles of a timer may differ in their slots, but no operation looks at a slot other than to find
the timer or to compare it with that of another one, and both handles are those that are found under the name.

## Main definitions

* `Hosts.timer?` — the timer with a name
* `Hosts.Covers` — host objects with the same entities, and with all timers of the others
* `Hosts.Aligned` — hosts under whose names and ids the same handles are found
* `Value.Alike` — values that stand for the same objects
* `Except.Rel` — results that are related, or the same fault

## Main results

* `Hosts.Covers.timer` — a timer that is made covered stands at zero in the other hosts
* `Expr.eval_alike` — an expression over two hosts
-/

namespace Barrage

/-! ### Hosts -/

namespace Hosts

variable {hosts fewer : Hosts} {name other : String} {slot : Nat}

/-- State of the timer with a name, if there is one. -/
def timer? (hosts : Hosts) (name : String) : Option Timer := hosts.timers.find? (·.name == name)

/-- Host objects with the same entities, and with every timer that the others have, in the same state. -/
structure Covers (hosts fewer : Hosts) : Prop where
  entities : fewer.entities = hosts.entities
  timers : ∀ name t, fewer.timer? name = some t → hosts.timer? name = some t

/-- The timer that is found under a name is the one with that name. -/
theorem timer?_of_timerSlot? (h : hosts.timerSlot? name = some slot) :
    hosts.timer? name = some (hosts.timerOf ⟨slot, name⟩) := by
  obtain ⟨hlt, hname, hbefore⟩ := List.findIdx?_eq_some_iff_getElem.1 h
  rw [timerOf, List.getD_eq_getElem?_getD, List.getElem?_eq_getElem hlt, Option.getD_some, timer?,
    List.find?_eq_some_iff_getElem]
  exact ⟨hname, slot, hlt, rfl, fun j hj => by simpa using hbefore j hj⟩

theorem timer?_advance (hosts : Hosts) (dt : Float) (name : String) :
    (hosts.advance dt).timer? name = (hosts.timer? name).map (Timer.advance dt) := by
  have hname : ((·.name == name) ∘ Timer.advance dt : Timer → Bool) = (·.name == name) := by
    funext t
    rw [Function.comp_apply, Timer.advance]
    split <;> rfl
  rw [timer?, advance, List.find?_map, hname]
  rfl

theorem timer?_restart (hosts : Hosts) (name : String) :
    hosts.restart.timer? name = (hosts.timer? name).map Timer.restart := by
  rw [timer?, restart, List.find?_map]
  rfl

/-- A timer that is made is new, and the others stay what they are. -/
theorem timer?_timer (hosts : Hosts) (name other : String) :
    (hosts.timer name).2.timer? other =
      (hosts.timer? other).or (if name = other then some (Timer.new name) else none) := by
  cases hslot : hosts.timerSlot? name with
  | some slot =>
    simp only [timer, hslot]
    split
    · rename_i heq
      rw [← heq, timer?_of_timerSlot? hslot, Option.some_or]
    · exact Option.or_none.symm
  | none =>
    simp only [timer, hslot]
    rw [timer?, List.find?_append]
    congr 1
    by_cases h : name = other
    · rw [if_pos h]
      exact List.find?_cons_of_pos (by simpa [Timer.new] using h)
    · rw [if_neg h]
      exact List.find?_cons_of_neg (by simpa [Timer.new] using h)

/-- Hosts under whose names and ids the same handles are found. -/
structure Aligned (base hosts : Hosts) : Prop where
  timers : ∀ name, hosts.timerSlot? name = base.timerSlot? name
  entities : ∀ id, hosts.entity? id = base.entity? id

/-- Which entity is found is a matter of the ids. -/
theorem entity?_eq (hosts : Hosts) (id : String) : hosts.entity? id =
    ((hosts.entities.map Entity.id).reverse.findIdx? (· == id)).map fun back =>
      ⟨(hosts.entities.map Entity.id).length - 1 - back, id⟩ := by
  rw [← List.map_reverse, List.findIdx?_map, List.length_map]
  rfl

namespace Aligned

variable {base : Hosts}

theorem refl (hosts : Hosts) : hosts.Aligned hosts := ⟨fun _ => rfl, fun _ => rfl⟩

/-- A change of the timers that keeps their names. -/
theorem mapTimers (h : base.Aligned hosts) {f : Timer → Timer} (hname : ∀ t, (f t).name = t.name) :
    base.Aligned { hosts with timers := hosts.timers.map f } where
  timers name := by
    refine Eq.trans ?_ (h.timers name)
    rw [timerSlot?, List.findIdx?_map]
    exact congrArg (List.findIdx? · hosts.timers) (funext fun t => congrArg (· == name) (hname t))
  entities := h.entities

theorem advance (h : base.Aligned hosts) (dt : Float) : base.Aligned (hosts.advance dt) :=
  h.mapTimers fun t => by unfold Timer.advance; split <;> rfl

theorem restart (h : base.Aligned hosts) : base.Aligned hosts.restart := h.mapTimers fun _ => rfl

theorem setHp (h : base.Aligned hosts) (handle : EntityHandle) (hp : Float) : base.Aligned (hosts.setHp handle hp) where
  timers := h.timers
  entities id := by
    have hids : (hosts.setHp handle hp).entities.map Entity.id = hosts.entities.map Entity.id := by
      refine List.ext_getElem? fun i => ?_
      rw [List.getElem?_map, List.getElem?_map, Hosts.setHp, updateEntity, List.getElem?_modify]
      split <;> cases hosts.entities[i]? <;> rfl
    rw [entity?_eq, hids, ← entity?_eq, h.entities]

end Aligned

namespace Covers

theorem refl (hosts : Hosts) : hosts.Covers hosts := ⟨rfl, fun _ _ h => h⟩

theorem advance (h : hosts.Covers fewer) (dt : Float) : (hosts.advance dt).Covers (fewer.advance dt) where
  entities := h.entities
  timers name t ht := by
    rw [timer?_advance, Option.map_eq_some_iff] at ht ⊢
    obtain ⟨u, hu, rfl⟩ := ht
    exact ⟨u, h.timers name u hu, rfl⟩

theorem restart (h : hosts.Covers fewer) : hosts.restart.Covers fewer.restart where
  entities := h.entities
  timers name t ht := by
    rw [timer?_restart, Option.map_eq_some_iff] at ht ⊢
    obtain ⟨u, hu, rfl⟩ := ht
    exact ⟨u, h.timers name u hu, rfl⟩

theorem setHp (h : hosts.Covers fewer) (handle : EntityHandle) (hp : Float) :
    (hosts.setHp handle hp).Covers (fewer.setHp handle hp) where
  entities := congrArg (List.modify · handle.slot _) h.entities
  timers := h.timers

theorem hp (h : hosts.Covers fewer) (handle : EntityHandle) : fewer.hp handle = hosts.hp handle := by
  rw [Hosts.hp, Hosts.hp, entityOf, entityOf, h.entities]

/-- A timer that is made stands at zero, as does the one that covers it. -/
theorem timer (h : hosts.Covers fewer)
    (hnew : fewer.timer? name = none → hosts.timer? name = some (Timer.new name)) :
    hosts.Covers (fewer.timer name).2 where
  entities := by
    unfold Hosts.timer
    split <;> exact h.entities
  timers other t ht := by
    rw [timer?_timer] at ht
    cases hother : fewer.timer? other with
    | some u =>
      rw [hother, Option.some_or] at ht
      exact h.timers other t (hother.trans ht)
    | none =>
      rw [hother, Option.none_or] at ht
      split at ht
      · rename_i heq
        subst heq
        cases ht
        exact hnew hother
      · cases ht

end Covers

end Hosts

/-! ### Results -/

/-- Results that are related, or the same fault. -/
inductive Except.Rel {ε α β : Type} (R : α → β → Prop) : Except ε α → Except ε β → Prop
  | ok {a : α} {b : β} (h : R a b) : Rel R (.ok a) (.ok b)
  | error (e : ε) : Rel R (.error e) (.error e)

/-- Sequencing: what follows may rely on what relates the first results. -/
theorem Except.Rel.bind {ε α β α' β' : Type} {R : α → β → Prop} {S : α' → β' → Prop} {x : Except ε α}
    {y : Except ε β} {f : α → Except ε α'} {g : β → Except ε β'} (h : Rel R x y)
    (hfg : ∀ a b, R a b → Rel S (f a) (g b)) : Rel S (x >>= f) (y >>= g) := by
  cases h with
  | ok hR => exact hfg _ _ hR
  | error e => exact .error e

theorem Except.Rel.rfl {ε α : Type} (x : Except ε α) : Rel (fun a b : α => a = b) x x :=
  match x with
  | .ok _ => .ok (Eq.refl _)
  | .error e => .error e

/-! ### Values -/

namespace Value

/-- Values that stand for the same objects: the handles of a timer are those that are found under its name, and
everything else is the same. -/
def Alike (hosts fewer : Hosts) : Value → Value → Prop
  | .timer handle, .timer handle' => handle.name = handle'.name ∧
    hosts.timerSlot? handle.name = some handle.slot ∧ fewer.timerSlot? handle'.name = some handle'.slot
  | v, v' => v = v'

variable {hosts fewer : Hosts} {v v' w w' : Value}

theorem alike_refl (h : v.type ≠ .timer) : Alike hosts fewer v v := by
  cases v with
  | timer handle => exact absurd rfl h
  | _ => exact rfl

theorem Alike.type (h : Alike hosts fewer v v') : v.type = v'.type := by
  cases v <;> cases v' <;> first | rfl | cases h

/-- Values other than timers are the same. -/
theorem Alike.eq (h : Alike hosts fewer v v') (htype : v.type ≠ .timer) : v = v' := by
  cases v with
  | timer handle => exact absurd rfl htype
  | _ => exact h

/-- What a timer is like is a timer of the same name. -/
theorem Alike.exists_timer (h : Alike hosts fewer v v') (htype : v.type = .timer) :
    ∃ handle handle' : TimerHandle, v = .timer handle ∧ v' = .timer handle' ∧ handle.name = handle'.name ∧
      hosts.timerSlot? handle.name = some handle.slot ∧ fewer.timerSlot? handle'.name = some handle'.slot := by
  cases v <;> cases htype
  cases v' with
  | timer handle' => exact ⟨_, _, rfl, rfl, h⟩
  | _ => cases h

/-- Results that are no timers are related to themselves. -/
theorem rel_refl {x : Except EvalError Value} (h : ∀ v, x = .ok v → v.type ≠ .timer) :
    Except.Rel (Alike hosts fewer) x x :=
  match x with
  | .ok v => .ok (alike_refl (h v rfl))
  | .error e => .error e

/-! ### Operations -/

theorem toBool_alike (h : Alike hosts fewer v v') : v.toBool = v'.toBool := by
  cases v <;> cases v' <;> cases h <;> rfl

theorem toFloat_alike (h : Alike hosts fewer v v') : v.toFloat = v'.toFloat := by
  cases v <;> cases v' <;> cases h <;> rfl

theorem member_alike (hcovers : hosts.Covers fewer) (h : Alike hosts fewer v v') (field : Member) :
    Except.Rel (Alike hosts fewer) (v.member hosts field) (v'.member fewer field) := by
  by_cases htimer : v.type = .timer
  · obtain ⟨handle, handle', rfl, rfl, hname, hslot, hslot'⟩ := h.exists_timer htimer
    cases field with
    | elapsed =>
      -- The slots may differ, but each of them is where the timer with the name is found.
      have hstate := hcovers.timers _ _ (Hosts.timer?_of_timerSlot? hslot')
      rw [← hname, Hosts.timer?_of_timerSlot? hslot, Option.some.injEq] at hstate
      refine .ok (congrArg (fun t : Timer => float t.elapsed) ?_)
      rw [hstate, hname]
    | _ => exact .error _
  · obtain rfl := h.eq htimer
    cases v with
    | timer handle => exact absurd rfl htimer
    | entity handle =>
      have hentity : hosts.entityOf handle = fewer.entityOf handle := by
        rw [Hosts.entityOf, Hosts.entityOf, hcovers.entities]
      cases field with
      | hp => exact .ok (congrArg (fun e : Entity => float e.hp) hentity)
      | position => exact .ok (congrArg (fun e : Entity => vec2 e.position) hentity)
      | _ => exact .error _
    | vec2 v => cases field <;> first | exact .ok rfl | exact .error _
    | _ => exact .error _

theorem checked_ne_timer {operation : Arithmetic} {n : Option Int64} {u : Value} (h : checked operation n = .ok u) :
    u.type ≠ .timer := by
  cases n <;> cases h
  nofun

/-- An operation with one operand that takes no timers. -/
theorem rel_of_type {f : Value → Except EvalError Value} {e : ValueType → EvalError}
    (htimer : ∀ v, v.type = .timer → f v = .error (e v.type)) (hresult : ∀ v u, f v = .ok u → u.type ≠ .timer)
    (h : Alike hosts fewer v v') : Except.Rel (Alike hosts fewer) (f v) (f v') := by
  by_cases htype : v.type = .timer
  · rw [htimer v htype, htimer v' (h.type ▸ htype), h.type]
    exact .error _
  · obtain rfl := h.eq htype
    exact rel_refl (hresult v)

/-- An operation with two operands that takes no timers. -/
theorem rel_of_types {f : Value → Value → Except EvalError Value}
    (htimer : ∀ v w, v.type = .timer ∨ w.type = .timer → f v w = .error (w.mismatch v.type))
    (hresult : ∀ v w u, f v w = .ok u → u.type ≠ .timer) (hv : Alike hosts fewer v v') (hw : Alike hosts fewer w w') :
    Except.Rel (Alike hosts fewer) (f v w) (f v' w') := by
  by_cases htype : v.type = .timer ∨ w.type = .timer
  · have htype' : v'.type = .timer ∨ w'.type = .timer := by rwa [← hv.type, ← hw.type]
    rw [htimer v w htype, htimer v' w' htype', mismatch, mismatch, hv.type, hw.type]
    exact .error _
  · rw [not_or] at htype
    obtain rfl := hv.eq htype.1
    obtain rfl := hw.eq htype.2
    exact rel_refl (hresult v w)

/-- Handles that are found under their names are the same if the names are. -/
theorem handle_eq_iff {a b : TimerHandle} (ha : hosts.timerSlot? a.name = some a.slot)
    (hb : hosts.timerSlot? b.name = some b.slot) : a = b ↔ a.name = b.name := by
  refine ⟨congrArg _, fun h => ?_⟩
  rw [h, hb] at ha
  cases a
  cases b
  exact congrArg₂ TimerHandle.mk (Option.some.inj ha).symm h

theorem timer_beq (handle handle' : TimerHandle) :
    (Value.timer handle == Value.timer handle') = decide (handle = handle') := rfl

/-- Timers are the same if their names are. -/
theorem beq_alike (hv : Alike hosts fewer v v') (hw : Alike hosts fewer w w') : (v == w) = (v' == w') := by
  by_cases hvtype : v.type = .timer
  · obtain ⟨a, a', rfl, rfl, hname, hslot, hslot'⟩ := hv.exists_timer hvtype
    by_cases hwtype : w.type = .timer
    · obtain ⟨b, b', rfl, rfl, hname', hslot₂, hslot₂'⟩ := hw.exists_timer hwtype
      rw [timer_beq, timer_beq, decide_eq_decide, handle_eq_iff hslot hslot₂, handle_eq_iff hslot' hslot₂', hname,
        hname']
    · obtain rfl := hw.eq hwtype
      cases w with
      | timer handle => exact absurd rfl hwtype
      | _ => rfl
  · obtain rfl := hv.eq hvtype
    by_cases hwtype : w.type = .timer
    · obtain ⟨b, b', rfl, rfl, -⟩ := hw.exists_timer hwtype
      cases v with
      | timer handle => exact absurd rfl hvtype
      | _ => rfl
    · rw [hw.eq hwtype]

theorem unary_alike (op : UnOp) (h : Alike hosts fewer v v') :
    Except.Rel (Alike hosts fewer) (unary op v) (unary op v') := by
  refine rel_of_type (e := .argumentType 0 .float) (fun v hv => ?_) (fun v u hu => ?_) h
  · cases v <;> cases hv
    cases op <;> rfl
  · unfold unary at hu
    split at hu
    all_goals first | exact checked_ne_timer hu | (cases hu <;> nofun)

theorem equal_eq_beq (order : FloatOrder) (h : ¬ (v.type = .float ∧ w.type = .float)) :
    equal order v w = (v == w) ∧ unequal order v w = (v != w) := by
  cases v with
  | float x =>
    cases w with
    | float y => exact absurd ⟨rfl, rfl⟩ h
    | _ => exact ⟨rfl, rfl⟩
  | _ => exact ⟨rfl, rfl⟩

/-- Comparisons of values for equality do not tell two hosts apart. -/
theorem equal_alike (order : FloatOrder) (hv : Alike hosts fewer v v') (hw : Alike hosts fewer w w') :
    equal order v w = equal order v' w' ∧ unequal order v w = unequal order v' w' := by
  by_cases h : v.type = .float ∧ w.type = .float
  · rw [hv.eq (by rw [h.1]; decide), hw.eq (by rw [h.2]; decide)]
    exact ⟨rfl, rfl⟩
  · have h' : ¬ (v'.type = .float ∧ w'.type = .float) := by rwa [← hv.type, ← hw.type]
    obtain ⟨heq, hne⟩ := equal_eq_beq order h
    obtain ⟨heq', hne'⟩ := equal_eq_beq order h'
    have hbeq := beq_alike hv hw
    rw [heq, hne, heq', hne', bne, bne, hbeq]
    exact ⟨rfl, rfl⟩

theorem binary_alike (order : FloatOrder) (op : BinOp) (hv : Alike hosts fewer v v') (hw : Alike hosts fewer w w') :
    Except.Rel (Alike hosts fewer) (binary order op v w) (binary order op v' w') := by
  obtain ⟨hequal, hunequal⟩ := equal_alike order hv hw
  by_cases hop : op = .eq ∨ op = .ne
  · rcases hop with rfl | rfl
    · exact .ok (congrArg bool hequal)
    · exact .ok (congrArg bool hunequal)
  · rw [not_or] at hop
    refine rel_of_types (f := binary order op) (fun v w htimer => ?_) (fun v w u hu => ?_) hv hw
    · unfold binary
      split
      all_goals first | rfl | exact absurd rfl hop.1 | exact absurd rfl hop.2 | exact (htimer.elim nofun nofun)
    · unfold binary at hu
      repeat' split at hu
      all_goals first | exact checked_ne_timer hu | (cases hu <;> nofun)

/-- The steps in which operands are joined. -/
theorem step_alike {step : Value → Value → Except EvalError Value} (hstep : step ∈ [plus, times, least, greatest])
    (hv : Alike hosts fewer v v') (hw : Alike hosts fewer w w') :
    Except.Rel (Alike hosts fewer) (step v w) (step v' w') := by
  simp only [List.mem_cons, List.not_mem_nil, or_false] at hstep
  refine rel_of_types (fun v w htimer => ?_) (fun v w u hu => ?_) hv hw
  · rcases hstep with rfl | rfl | rfl | rfl
    all_goals cases v <;> cases w <;> first | rfl | exact htimer.elim nofun nofun
  · rcases hstep with rfl | rfl | rfl | rfl
    all_goals cases v <;> cases w <;> first | exact checked_ne_timer hu | (cases hu <;> nofun)

end Value

namespace Func

variable {hosts fewer : Hosts} {v v' : Value} {vs vs' : List Value}

/-- Operands that are joined step by step. -/
theorem joinWith_alike {step : Value → Value → Except EvalError Value}
    (hstep : step ∈ [Value.plus, Value.times, Value.least, Value.greatest])
    (hv : v.Alike hosts fewer v') (hvs : List.Forall₂ (Value.Alike hosts fewer) vs vs') :
    Except.Rel (Value.Alike hosts fewer) (joinWith step v vs) (joinWith step v' vs') := by
  unfold joinWith
  induction hvs generalizing v v' with
  | nil => exact .ok hv
  | cons hw _ ih =>
    rw [List.foldlM_cons, List.foldlM_cons]
    exact (Value.step_alike hstep hv hw).bind fun _ _ => ih

theorem mapM_toFloat_alike (hvs : List.Forall₂ (Value.Alike hosts fewer) vs vs') :
    vs.mapM Value.toFloat = vs'.mapM Value.toFloat := by
  induction hvs with
  | nil => rfl
  | cons hv _ ih => rw [List.mapM_cons, List.mapM_cons, Value.toFloat_alike hv, ih]

/-- Functions of numbers, which come to no timers. -/
theorem ofFloats_alike {f : List Float → Except EvalError Value} (hf : ∀ xs u, f xs = .ok u → u.type ≠ .timer)
    (hvs : List.Forall₂ (Value.Alike hosts fewer) vs vs') :
    Except.Rel (Value.Alike hosts fewer) (ofFloats f vs) (ofFloats f vs') := by
  unfold ofFloats
  rw [mapM_toFloat_alike hvs]
  refine (Except.Rel.rfl _).bind fun xs _ heq => ?_
  subst heq
  exact Value.rel_refl (hf xs)

/-- Functions of one number. -/
theorem toFloat_bind_alike (f : Float → Float) (hv : v.Alike hosts fewer v') :
    Except.Rel (Value.Alike hosts fewer) (do return Value.float (f (← v.toFloat)))
      (do return Value.float (f (← v'.toFloat))) := by
  rw [Value.toFloat_alike hv]
  refine (Except.Rel.rfl _).bind fun x _ heq => ?_
  subst heq
  exact .ok rfl

theorem apply_alike {func : Func} (hand : func ≠ .and) (hor : func ≠ .or)
    (hvs : List.Forall₂ (Value.Alike hosts fewer) vs vs') :
    Except.Rel (Value.Alike hosts fewer) (func.apply vs) (func.apply vs') := by
  cases hvs with
  | nil => exact .error _
  | @cons v v' vs vs' hv hvs =>
    cases func with
    | and => exact absurd rfl hand
    | or => exact absurd rfl hor
    | add => exact joinWith_alike (by simp) hv hvs
    | mul => exact joinWith_alike (by simp) hv hvs
    | min => exact joinWith_alike (by simp) hv hvs
    | max => exact joinWith_alike (by simp) hv hvs
    | abs =>
      refine Value.rel_of_type (f := Value.absolute) (e := .argumentType 0 .float) (fun v hv => ?_)
        (fun v u hu => ?_) hv
      · cases v <;> cases hv
        rfl
      · cases v <;> first | exact Value.checked_ne_timer hu | (cases hu <;> nofun)
    | toFloat =>
      refine Value.rel_of_type (f := Value.ofWhole) (e := .argumentType 0 .int) (fun v hv => ?_)
        (fun v u hu => ?_) hv
      · cases v <;> cases hv
        rfl
      · cases v <;> cases hu
        nofun
    | sin => exact toFloat_bind_alike Float.sin hv
    | cos => exact toFloat_bind_alike Float.cos hv
    | sqrt => exact toFloat_bind_alike Float.sqrt hv
    | floor => exact toFloat_bind_alike Float.floor hv
    | vec2 | lerp | clamp =>
      refine ofFloats_alike (fun xs u hu => ?_) (.cons hv hvs)
      split at hu <;> cases hu
      nofun

end Func

/-! ### Expressions -/

namespace Expr

/-- Environments with the same names, whose values stand for the same objects. -/
def Env.Alike (hosts fewer : Hosts) (env env' : Env) : Prop :=
  List.Forall₂ (fun b b' => b.1 = b'.1 ∧ b.2.Alike hosts fewer b'.2) env env'

variable {hosts fewer : Hosts} {env env' : Env} {order : FloatOrder} {args : List Expr}

/-- An environment without timers. -/
theorem Env.alike_refl (h : ∀ b ∈ env, b.2.type ≠ .timer) : env.Alike hosts fewer env :=
  List.forall₂_same.2 fun b hb => ⟨rfl, Value.alike_refl (h b hb)⟩

theorem Env.Alike.lookup (h : env.Alike hosts fewer env') (name : String) :
    (∃ v v', env.lookup name = some v ∧ env'.lookup name = some v' ∧ v.Alike hosts fewer v') ∨
      env.lookup name = none ∧ env'.lookup name = none := by
  induction h with
  | nil => exact .inr ⟨rfl, rfl⟩
  | @cons b b' env env' hb _ ih =>
    obtain ⟨x, v⟩ := b
    obtain ⟨y, v'⟩ := b'
    obtain ⟨rfl, hv⟩ : x = y ∧ v.Alike hosts fewer v' := hb
    rw [lookup_cons_ite, lookup_cons_ite]
    by_cases hname : name = x
    · rw [if_pos hname, if_pos hname]
      exact .inl ⟨v, v', rfl, rfl, hv⟩
    · rw [if_neg hname, if_neg hname]
      exact ih

theorem evalList_alike (h : ∀ e ∈ args, Except.Rel (Value.Alike hosts fewer) (eval order hosts env e)
    (eval order fewer env' e)) :
    Except.Rel (List.Forall₂ (Value.Alike hosts fewer)) (evalList order hosts env args)
      (evalList order fewer env' args) := by
  induction args with
  | nil => exact .ok .nil
  | cons e es ih =>
    obtain ⟨he, hes⟩ := List.forall_mem_cons.1 h
    rw [evalList, evalList]
    exact he.bind fun _ _ hv => (ih hes).bind fun _ _ hvs => .ok (.cons hv hvs)

theorem evalDeciding_alike {short : Bool} (h : ∀ e ∈ args, Except.Rel (Value.Alike hosts fewer)
    (eval order hosts env e) (eval order fewer env' e)) :
    Except.Rel Eq (evalDeciding order hosts env short args) (evalDeciding order fewer env' short args) := by
  induction args with
  | nil => exact .ok rfl
  | cons e es ih =>
    obtain ⟨he, hes⟩ := List.forall_mem_cons.1 h
    rw [evalDeciding, evalDeciding]
    refine he.bind fun v v' hv => ?_
    rw [Value.toBool_alike hv]
    refine (Except.Rel.rfl _).bind fun b _ heq => ?_
    subst heq
    split
    · exact .ok rfl
    · exact ih hes

/-- An expression that names no object itself does not tell two hosts apart. -/
theorem eval_alike (hcovers : hosts.Covers fewer) (e : Expr) (he : e.objects = []) (henv : env.Alike hosts fewer env') :
    Except.Rel (Value.Alike hosts fewer) (eval order hosts env e) (eval order fewer env' e) := by
  induction e using treeInduction generalizing env env' with
  | const value =>
    refine .ok (Value.alike_refl fun htype => ?_)
    cases value <;> cases htype
    cases he
  | var name =>
    rw [eval, eval]
    rcases henv.lookup name with ⟨v, v', hv, hv', halike⟩ | ⟨hnone, hnone'⟩
    · rw [hv, hv']
      exact .ok halike
    · rw [hnone, hnone', unbound, unbound, henv.length_eq]
      exact .error _
  | member inner field ih =>
    exact (ih he henv).bind fun v v' hv => Value.member_alike hcovers hv field
  | unary op inner ih => exact (ih he henv).bind fun v v' hv => Value.unary_alike op hv
  | binary op left right ihl ihr =>
    obtain ⟨hl, hr⟩ := List.append_eq_nil_iff.1 he
    exact (ihl hl henv).bind fun v v' hv => (ihr hr henv).bind fun w w' hw => Value.binary_alike order op hv hw
  | branch cond yes no ihc ihy ihn =>
    obtain ⟨hcy, hn⟩ := List.append_eq_nil_iff.1 he
    obtain ⟨hc, hy⟩ := List.append_eq_nil_iff.1 hcy
    refine (ihc hc henv).bind fun v v' hv => ?_
    rw [Value.toBool_alike hv]
    refine (Except.Rel.rfl _).bind fun b _ heq => ?_
    subst heq
    cases b with
    | true => exact ihy hy henv
    | false => exact ihn hn henv
  | bind name value body ihv ihb =>
    obtain ⟨hv, hb⟩ := List.append_eq_nil_iff.1 he
    exact (ihv hv henv).bind fun v v' hv => ihb hb (.cons ⟨rfl, hv⟩ henv)
  | call func args ih =>
    have hobjects : ∀ e ∈ args, e.objects = [] :=
      List.flatMap_eq_nil_iff.1 ((objectsList_eq_flatMap args).symm.trans he)
    have hargs : ∀ e ∈ args, Except.Rel (Value.Alike hosts fewer) (eval order hosts env e)
        (eval order fewer env' e) := fun e hmem => ih e hmem (hobjects e hmem) henv
    by_cases hshort : func = .and ∨ func = .or
    · rcases hshort with rfl | rfl
      · exact (evalDeciding_alike hargs).bind fun b b' heq => .ok (congrArg Value.bool heq)
      · exact (evalDeciding_alike hargs).bind fun b b' heq => .ok (congrArg Value.bool heq)
    · rw [not_or] at hshort
      rw [eval_call hshort.1 hshort.2, eval_call hshort.1 hshort.2]
      exact (evalList_alike hargs).bind fun vs vs' hvs => Func.apply_alike hshort.1 hshort.2 hvs

end Expr

end Barrage
