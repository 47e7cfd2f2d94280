import Mathlib.Data.List.Nodup
import Barrage.Expr.Flatten
import Barrage.Proofs.Expr.Linearizing

/-!
# Lookups in the place of objects

Hoisting goes through a tree from left to right and lists each object when it meets it for the first
time. The list only grows, and an object keeps the name it was listed with; so hoisting comes to listing
the objects of the tree first and then replacing each of them by its name. Replacing puts a variable in
the place of a constant, which changes nothing for the nodes above: it commutes with joining nested
calls, and over an environment that holds the objects under their names a tree keeps its type and value.

## Main definitions

* `Expr.objects` — the host objects in a tree, from left to right
* `Expr.declare`, `Expr.withNames` — the list of lookups, and a tree with names in the place of objects
* `Expr.Declares` — lists of lookups as hoisting makes them
* `HostRef.value` — what a lookup gives

## Main results

* `Expr.hoist_eq` — hoisting is listing and replacing
* `Expr.flatten_withNames` — hoisting commutes with joining nested calls
* `Expr.inferIn_withNames`, `Expr.eval_withNames` — types and values
-/

namespace Barrage

/-- The lookup that a host object is found by. -/
def Value.object? : Value → Option HostRef
  | timer handle => some (.timer handle.name)
  | entity handle => some (.entity handle.id)
  | _ => none

/-- What a lookup gives; an entity that is not there has the handle of none. -/
def HostRef.value (hosts : Hosts) : HostRef → Value
  | timer name => .timer (hosts.timer name).1
  | entity id => .entity ((hosts.entity? id).getD ⟨0, id⟩)

/-- The type of what a lookup gives. -/
def HostRef.type : HostRef → ValueType
  | timer _ => .timer
  | entity _ => .entity

/-- The name of a lookup that some others stand before. -/
def hoistedName (object : HostRef) (index : Nat) : String := s!"{object.kind}__{index}"

namespace Expr

mutual

/-- The host objects in a tree, from left to right. -/
def objects : Expr → List Value
  | const value => if value.object?.isSome then [value] else []
  | var _ => []
  | member inner _ | unary _ inner => inner.objects
  | binary _ left right => left.objects ++ right.objects
  | call _ args => objectsList args
  | branch cond yes no => cond.objects ++ yes.objects ++ no.objects
  | bind _ value body => value.objects ++ body.objects

/-- The host objects in a list of trees. -/
def objectsList : List Expr → List Value
  | [] => []
  | e :: es => e.objects ++ objectsList es

end

mutual

/-- The names that the bindings of a tree bind. -/
def boundNames : Expr → List String
  | const _ | var _ => []
  | member inner _ | unary _ inner => inner.boundNames
  | binary _ left right => left.boundNames ++ right.boundNames
  | call _ args => boundNamesList args
  | branch cond yes no => cond.boundNames ++ yes.boundNames ++ no.boundNames
  | bind name value body => name :: value.boundNames ++ body.boundNames

/-- The names that the bindings in a list of trees bind. -/
def boundNamesList : List Expr → List String
  | [] => []
  | e :: es => e.boundNames ++ boundNamesList es

end

/-- The list of lookups after an object has been met. -/
def declare (found : List Hoisted) (object : HostRef) : List Hoisted :=
  match found.find? (·.object == object) with
  | some _ => found
  | none => found ++ [⟨hoistedName object found.length, object⟩]

/-- The list of lookups after the objects of a list of values have been met. -/
def declareAll (found : List Hoisted) (values : List Value) : List Hoisted :=
  (values.filterMap Value.object?).foldl declare found

/-- The name that an object is listed with. -/
def nameIn (found : List Hoisted) (object : HostRef) : String :=
  ((found.find? (·.object == object)).map (·.name)).getD ""

mutual

/-- A tree with the names of lookups in the place of objects. -/
def withNames (found : List Hoisted) : Expr → Expr
  | const value =>
    match value.object? with
    | some object => var (nameIn found object)
    | none => const value
  | var name => var name
  | member inner field => member (withNames found inner) field
  | unary op inner => unary op (withNames found inner)
  | binary op left right => binary op (withNames found left) (withNames found right)
  | call func args => call func (withNamesList found args)
  | branch cond yes no => branch (withNames found cond) (withNames found yes) (withNames found no)
  | bind name value body => bind name (withNames found value) (withNames found body)

/-- Trees with the names of lookups in the place of objects. -/
def withNamesList (found : List Hoisted) : List Expr → List Expr
  | [] => []
  | e :: es => withNames found e :: withNamesList found es

end

/-! ### Listing -/

/-- Whether a list of lookups holds an object. -/
def Lists (found : List Hoisted) (object : HostRef) : Prop := ∃ h ∈ found, h.object = object

theorem find?_isSome_iff {found : List Hoisted} {object : HostRef} :
    (found.find? (·.object == object)).isSome ↔ Lists found object := by
  simp [Lists]

theorem Lists.declare {found : List Hoisted} {object : HostRef} (h : Lists found object)
    (other : HostRef) : Lists (declare found other) object := by
  obtain ⟨known, hknown, rfl⟩ := h
  refine ⟨known, ?_, rfl⟩
  unfold Expr.declare
  split
  · exact hknown
  · exact List.mem_append_left _ hknown

theorem lists_declare (found : List Hoisted) (object : HostRef) :
    Lists (declare found object) object := by
  unfold declare
  split
  · rename_i known hfind
    exact find?_isSome_iff.1 (by rw [hfind]; rfl)
  · exact ⟨_, List.mem_append_right _ (List.mem_singleton_self _), rfl⟩

/-- Once an object is listed, its name stays. -/
theorem nameIn_declare {found : List Hoisted} {object : HostRef} (h : Lists found object)
    (other : HostRef) : nameIn (declare found other) object = nameIn found object := by
  unfold declare
  split
  · rfl
  · obtain ⟨known, hknown⟩ := Option.isSome_iff_exists.1 (find?_isSome_iff.2 h)
    simp [nameIn, List.find?_append, hknown]

theorem Lists.declareAll {found : List Hoisted} {object : HostRef} (h : Lists found object)
    (values : List Value) : Lists (declareAll found values) object := by
  unfold Expr.declareAll
  induction values.filterMap Value.object? generalizing found with
  | nil => exact h
  | cons other others ih => exact ih (h.declare other)

theorem nameIn_declareAll {found : List Hoisted} {object : HostRef} (h : Lists found object)
    (values : List Value) : nameIn (declareAll found values) object = nameIn found object := by
  unfold declareAll
  induction values.filterMap Value.object? generalizing found with
  | nil => rfl
  | cons other others ih => exact (ih (h.declare other)).trans (nameIn_declare h other)

theorem declareAll_append (found : List Hoisted) (values values' : List Value) :
    declareAll found (values ++ values') = declareAll (declareAll found values) values' := by
  unfold declareAll
  rw [List.filterMap_append, List.foldl_append]

/-- All objects are listed afterwards. -/
theorem lists_declareAll (found : List Hoisted) {values : List Value} {value : Value}
    {object : HostRef} (h : value ∈ values) (hobject : value.object? = some object) :
    Lists (declareAll found values) object := by
  obtain ⟨before, behind, rfl⟩ := List.append_of_mem h
  rw [declareAll_append]
  have hcons : declareAll (declareAll found before) (value :: behind) =
      declareAll (declare (declareAll found before) object) behind := by
    simp [declareAll, hobject]
  rw [hcons]
  exact (lists_declare _ _).declareAll behind

/-! ### Replacing -/

/-- Two lists in which the objects of a tree have the same names do the same to the tree. -/
theorem withNames_congr {found found' : List Hoisted} {e : Expr}
    (h : ∀ v ∈ e.objects, ∀ object, v.object? = some object →
      nameIn found object = nameIn found' object) : withNames found e = withNames found' e := by
  induction e using treeInduction with
  | const value =>
    unfold withNames
    cases hobject : value.object? with
    | none => rfl
    | some object =>
      have := h value (by simp [objects, hobject]) object hobject
      simp only [this]
  | var name => rfl
  | member inner field ih => exact congrArg (member · field) (ih h)
  | unary op inner ih => exact congrArg (unary op) (ih h)
  | binary op left right ihl ihr =>
    obtain ⟨hl, hr⟩ := List.forall_mem_append.1 h
    exact congrArg₂ (binary op) (ihl hl) (ihr hr)
  | branch cond yes no ihc ihy ihn =>
    obtain ⟨hcy, hn⟩ := List.forall_mem_append.1 h
    obtain ⟨hc, hy⟩ := List.forall_mem_append.1 hcy
    rw [withNames, withNames, ihc hc, ihy hy, ihn hn]
  | bind name value body ihv ihb =>
    obtain ⟨hv, hb⟩ := List.forall_mem_append.1 h
    exact congrArg₂ (bind name) (ihv hv) (ihb hb)
  | call func args ih =>
    refine congrArg (call func) ?_
    change ∀ v ∈ objectsList args, _ at h
    induction args with
    | nil => rfl
    | cons e es ihes =>
      obtain ⟨he, hes⟩ := List.forall_mem_append.1 h
      exact congrArg₂ List.cons (ih e (by simp) he) (ihes (fun e he => ih e (by simp [he])) hes)

/-- Lookups of objects that are met later do not change what is done to a tree. -/
theorem withNames_declareAll (found : List Hoisted) (e : Expr) (values : List Value) :
    withNames (declareAll (declareAll found e.objects) values) e =
      withNames (declareAll found e.objects) e :=
  withNames_congr fun _ hv _ hobject => nameIn_declareAll (lists_declareAll found hv hobject) values

theorem hoistObject_eq (object : HostRef) (found : List Hoisted) :
    hoistObject object found = (var (nameIn (declare found object) object), declare found object) := by
  unfold hoistObject declare nameIn
  cases hfind : found.find? (·.object == object) with
  | some known => simp [hfind]
  | none =>
    simp [List.find?_append, hfind, hoistedName]

theorem hoistList_eq {es : List Expr}
    (h : ∀ e ∈ es, ∀ found, hoistWith e found =
      (withNames (declareAll found e.objects) e, declareAll found e.objects))
    (found : List Hoisted) :
    hoistList es found =
      (withNamesList (declareAll found (objectsList es)) es, declareAll found (objectsList es)) := by
  induction es generalizing found with
  | nil => rfl
  | cons e es ih =>
    rw [List.forall_mem_cons] at h
    simp only [hoistList, h.1, ih h.2, objectsList, declareAll_append, withNamesList,
      withNames_declareAll]

/-- Hoisting is listing the objects and replacing them by the names they are listed with. -/
theorem hoistWith_eq (e : Expr) (found : List Hoisted) :
    hoistWith e found = (withNames (declareAll found e.objects) e, declareAll found e.objects) := by
  induction e using treeInduction generalizing found with
  | const value =>
    cases value with
    | timer handle => exact hoistObject_eq _ _
    | entity handle => exact hoistObject_eq _ _
    | _ => rfl
  | var name => rfl
  | member inner field ih =>
    rw [hoistWith, ih]
    rfl
  | unary op inner ih =>
    rw [hoistWith, ih]
    rfl
  | binary op left right ihl ihr =>
    simp only [hoistWith, ihl, ihr, objects, declareAll_append, withNames, withNames_declareAll]
  | branch cond yes no ihc ihy ihn =>
    have hcond : withNames (declareAll (declareAll (declareAll found cond.objects) yes.objects)
        no.objects) cond = withNames (declareAll found cond.objects) cond := by
      rw [← declareAll_append, withNames_declareAll]
    simp only [hoistWith, ihc, ihy, ihn, objects, declareAll_append, withNames, withNames_declareAll,
      hcond]
  | bind name value body ihv ihb =>
    simp only [hoistWith, ihv, ihb, objects, declareAll_append, withNames, withNames_declareAll]
  | call func args ih =>
    rw [hoistWith, hoistList_eq ih]
    rfl

/-- The lookups of a tree. -/
def lookups (e : Expr) : List Hoisted := declareAll [] e.objects

theorem hoist_eq (e : Expr) : e.hoist = (withNames e.lookups e, e.lookups) := hoistWith_eq e []

/-! ### Joining nested calls -/

theorem withNamesList_eq_map (found : List Hoisted) (es : List Expr) :
    withNamesList found es = es.map (withNames found) := by
  induction es with
  | nil => rfl
  | cons e es ih => exact congrArg (withNames found e :: ·) ih

theorem objectsList_eq_flatMap (es : List Expr) : objectsList es = es.flatMap objects := by
  induction es with
  | nil => rfl
  | cons e es ih =>
    rw [objectsList, ih]
    rfl

theorem splice_withNames (func : Func) (found : List Hoisted) (e : Expr) :
    splice func (withNames found e) = withNamesList found (splice func e) := by
  cases e with
  | const value => cases value <;> rfl
  | call inner args =>
    simp only [withNames, splice]
    split
    · rfl
    · rfl
  | _ => rfl

/-- Joining nested calls and hoisting can be done in either order. -/
theorem flatten_withNames (found : List Hoisted) (e : Expr) :
    (withNames found e).flatten = withNames found e.flatten := by
  induction e using treeInduction with
  | const value =>
    simp only [flatten]
    unfold withNames
    cases value.object? <;> rfl
  | var name => rfl
  | member inner field ih => exact congrArg (member · field) ih
  | unary op inner ih => exact congrArg (unary op) ih
  | binary op left right ihl ihr => exact congrArg₂ (binary op) ihl ihr
  | branch cond yes no ihc ihy ihn => simp only [withNames, flatten, ihc, ihy, ihn]
  | bind name value body ihv ihb => exact congrArg₂ (bind name) ihv ihb
  | call func args ih =>
    refine congrArg (call func) ?_
    induction args with
    | nil => rfl
    | cons e es ihes =>
      have hes := ihes fun e he => ih e (by simp [he])
      simp only [withNamesList, flattenArgs, ih e (by simp), splice_withNames, hes]
      simp only [withNamesList_eq_map, List.map_append]

/-- What is collected from the leaves and bindings of a tree, in the order of the tree. -/
structure Collects {α : Type} (c : Expr → List α) (own : String → List α) : Prop where
  member : ∀ inner field, c (member inner field) = c inner
  unary : ∀ op inner, c (unary op inner) = c inner
  binary : ∀ op left right, c (binary op left right) = c left ++ c right
  call : ∀ func args, c (call func args) = args.flatMap c
  branch : ∀ cond yes no, c (branch cond yes no) = c cond ++ c yes ++ c no
  bind : ∀ name value body, c (bind name value body) = own name ++ (c value ++ c body)

namespace Collects

variable {α : Type} {c : Expr → List α} {own : String → List α}

theorem splice (h : Collects c own) (func : Func) (e : Expr) :
    (splice func e).flatMap c = c e := by
  cases e with
  | call inner args =>
    simp only [Expr.splice]
    split
    · exact (h.call inner args).symm
    · simp
  | _ => simp [Expr.splice]

/-- Joining nested calls keeps what is collected, and its order. -/
theorem flatten (h : Collects c own) (e : Expr) : c e.flatten = c e := by
  induction e using treeInduction with
  | const | var => rfl
  | member inner field ih => rw [Expr.flatten, h.member, h.member, ih]
  | unary op inner ih => rw [Expr.flatten, h.unary, h.unary, ih]
  | binary op left right ihl ihr => rw [Expr.flatten, h.binary, h.binary, ihl, ihr]
  | branch cond yes no ihc ihy ihn => rw [Expr.flatten, h.branch, h.branch, ihc, ihy, ihn]
  | bind name value body ihv ihb => rw [Expr.flatten, h.bind, h.bind, ihv, ihb]
  | call func args ih =>
    rw [Expr.flatten, h.call, h.call]
    induction args with
    | nil => rfl
    | cons e es ihes =>
      rw [flattenArgs, List.flatMap_append, h.splice, ih e (by simp),
        ihes fun e he => ih e (by simp [he]), List.flatMap_cons]

end Collects

theorem collects_objects : Collects objects fun _ => [] :=
  ⟨fun _ _ => rfl, fun _ _ => rfl, fun _ _ _ => rfl, fun _ args => objectsList_eq_flatMap args,
    fun _ _ _ => rfl, fun _ _ _ => rfl⟩

theorem objects_flatten (e : Expr) : e.flatten.objects = e.objects := collects_objects.flatten e

theorem boundNamesList_eq_flatMap (es : List Expr) : boundNamesList es = es.flatMap boundNames := by
  induction es with
  | nil => rfl
  | cons e es ih => exact congrArg (e.boundNames ++ ·) ih

theorem collects_boundNames : Collects boundNames fun name => [name] :=
  ⟨fun _ _ => rfl, fun _ _ => rfl, fun _ _ _ => rfl, fun _ args => boundNamesList_eq_flatMap args,
    fun _ _ _ => rfl, fun _ _ _ => rfl⟩

theorem boundNames_flatten (e : Expr) : e.flatten.boundNames = e.boundNames :=
  collects_boundNames.flatten e

theorem boundNames_withNames (found : List Hoisted) (e : Expr) :
    (withNames found e).boundNames = e.boundNames := by
  induction e using treeInduction with
  | const value => cases value <;> rfl
  | var name => rfl
  | member inner field ih => exact ih
  | unary op inner ih => exact ih
  | binary op left right ihl ihr => exact congrArg₂ (· ++ ·) ihl ihr
  | branch cond yes no ihc ihy ihn => exact congrArg₂ (· ++ ·) (congrArg₂ (· ++ ·) ihc ihy) ihn
  | bind name value body ihv ihb => exact congrArg (name :: ·) (congrArg₂ (· ++ ·) ihv ihb)
  | call func args ih =>
    change boundNamesList (withNamesList found args) = boundNamesList args
    induction args with
    | nil => rfl
    | cons e es ihes =>
      exact congrArg₂ (· ++ ·) (ih e (by simp)) (ihes fun e he => ih e (by simp [he]))

/-- Renaming keeps the places of the names that a tree binds and gives each of them a number. -/
theorem forall₂_boundNames_rename (names : List (String × String)) (e : Expr) (count : Nat) :
    List.Forall₂ (fun x y => ∃ n, y = letName x n) e.boundNames (rename names e count).1.boundNames := by
  induction e using treeInduction generalizing names count with
  | const | var => exact .nil
  | member inner field ih => exact ih names count
  | unary op inner ih => exact ih names count
  | binary op left right ihl ihr => exact List.rel_append (ihl names count) (ihr names _)
  | branch cond yes no ihc ihy ihn =>
    exact List.rel_append (List.rel_append (ihc names count) (ihy names _)) (ihn names _)
  | bind name value body ihv ihb => exact .cons ⟨_, rfl⟩ (List.rel_append (ihv names count) (ihb _ _))
  | call func args ih =>
    change List.Forall₂ _ (boundNamesList args) (boundNamesList (renameList names args count).1)
    induction args generalizing count with
    | nil => exact .nil
    | cons e es ihes =>
      exact List.rel_append (ih e (by simp) names count) (ihes (fun e he => ih e (by simp [he])) _)

/-- Hoisting leaves no objects. -/
theorem objects_withNames (found : List Hoisted) (e : Expr) : (withNames found e).objects = [] := by
  induction e using treeInduction with
  | const value => cases value <;> rfl
  | var name => rfl
  | member inner field ih => exact ih
  | unary op inner ih => exact ih
  | binary op left right ihl ihr => exact List.append_eq_nil_iff.2 ⟨ihl, ihr⟩
  | branch cond yes no ihc ihy ihn =>
    exact List.append_eq_nil_iff.2 ⟨List.append_eq_nil_iff.2 ⟨ihc, ihy⟩, ihn⟩
  | bind name value body ihv ihb => exact List.append_eq_nil_iff.2 ⟨ihv, ihb⟩
  | call func args ih =>
    change objectsList (withNamesList found args) = []
    induction args with
    | nil => rfl
    | cons e es ihes =>
      exact List.append_eq_nil_iff.2 ⟨ih e (by simp), ihes fun e he => ih e (by simp [he])⟩

/-! ### Lists of lookups -/

/-- Lists of lookups as hoisting makes them: each lookup is named by its place, and is listed once. -/
structure Declares (found : List Hoisted) : Prop where
  named : ∀ i h, found[i]? = some h → h.name = hoistedName h.object i
  distinct : (found.map (·.object)).Nodup

theorem Declares.declare {found : List Hoisted} (h : Declares found) (object : HostRef) :
    Declares (declare found object) := by
  unfold Expr.declare
  split
  · exact h
  · rename_i hfind
    have hnew : ∀ known ∈ found, known.object ≠ object := by simpa using hfind
    refine ⟨fun i known hi => ?_, ?_⟩
    · rw [List.getElem?_append] at hi
      split at hi
      · exact h.named i known hi
      · rw [List.getElem?_singleton] at hi
        split at hi
        · rename_i hlt hzero
          obtain rfl : i = found.length := by omega
          cases hi
          rfl
        · cases hi
    · rw [List.map_append, List.nodup_append]
      refine ⟨h.distinct, by simp, ?_⟩
      rintro _ hold _ hlast rfl
      obtain ⟨known, hknown, heq⟩ := List.mem_map.1 hold
      exact hnew known hknown (heq.trans (List.mem_singleton.1 hlast))

theorem declares_lookups (e : Expr) : Declares e.lookups := by
  have hall : ∀ (objects : List HostRef) (found : List Hoisted), Declares found →
      Declares (objects.foldl Expr.declare found) := by
    intro objects
    induction objects with
    | nil => exact fun _ h => h
    | cons object objects ih => exact fun _ h => ih _ (h.declare object)
  exact hall _ _ ⟨fun i h hi => by simp at hi, List.nodup_nil⟩

/-! ### Names of lookups -/

theorem toList_hoistedName (object : HostRef) (index : Nat) :
    (hoistedName object index).toList =
      (object.kind.toList ++ ['_']) ++ '_' :: Nat.toDigits 10 index := by
  simp [hoistedName, toString]

/-- No name of the source is the name of a lookup. -/
theorem hasDoubleUnderscore_hoistedName (object : HostRef) (index : Nat) :
    hasDoubleUnderscore (hoistedName object index).toList = true := by
  rw [toList_hoistedName, List.append_assoc]
  exact hasDoubleUnderscore_append _ _

/-- The name of a lookup is not one that linearizing makes. -/
theorem nameKind?_hoistedName (object : HostRef) (index : Nat) :
    nameKind? (hoistedName object index) = none := by
  rw [nameKind?, toList_hoistedName, dropWhile_reverse_append_toDigits (by decide)]
  cases object <;> rfl

theorem hoistedName_injective {object object' : HostRef} {i j : Nat}
    (h : hoistedName object i = hoistedName object' j) : i = j := by
  have hlist := congrArg (fun s => s.toList.reverse.takeWhile Char.isDigit) h
  simp only [toList_hoistedName, takeWhile_reverse_append_toDigits (by decide : '_'.isDigit = false),
    List.reverse_inj] at hlist
  exact toDigits_injective hlist

namespace Declares

variable {found : List Hoisted}

theorem exists_name (h : Declares found) {known : Hoisted} (hknown : known ∈ found) :
    ∃ index, known.name = hoistedName known.object index := by
  obtain ⟨i, hi⟩ := List.mem_iff_getElem?.1 hknown
  exact ⟨i, h.named i known hi⟩

theorem names_nodup (h : Declares found) : (found.map (·.name)).Nodup := by
  rw [List.Nodup, List.pairwise_iff_getElem]
  intro i j hi hj hij heq
  rw [List.length_map] at hi hj
  rw [List.getElem_map, List.getElem_map, h.named i _ (List.getElem?_eq_getElem hi),
    h.named j _ (List.getElem?_eq_getElem hj)] at heq
  have := hoistedName_injective heq
  omega

end Declares

theorem exists_nameIn {found : List Hoisted} {object : HostRef} (hlists : Lists found object) :
    ∃ known ∈ found, known.object = object ∧ nameIn found object = known.name := by
  obtain ⟨known, hknown⟩ := Option.isSome_iff_exists.1 (find?_isSome_iff.2 hlists)
  refine ⟨known, List.mem_of_find?_eq_some hknown, by simpa using List.find?_some hknown, ?_⟩
  rw [nameIn, hknown]
  rfl

/-- Names with what they stand for, given what each object stands for; the last one comes first. -/
def named {α : Type} (f : HostRef → α) (found : List Hoisted) : List (String × α) :=
  (found.map fun h => (h.name, f h.object)).reverse

theorem lookup_of_mem {α : Type} {names : List (String × α)} {name : String} {a : α}
    (hnodup : (names.map Prod.fst).Nodup) (h : (name, a) ∈ names) : names.lookup name = some a := by
  induction names with
  | nil => cases h
  | cons b names ih =>
    obtain ⟨y, c⟩ := b
    rw [List.map_cons, List.nodup_cons] at hnodup
    rw [lookup_cons_ite]
    rcases List.mem_cons.1 h with heq | hmem
    · cases heq
      rw [if_pos rfl]
    · have hne : name ≠ y := by
        rintro rfl
        exact hnodup.1 (List.mem_map.2 ⟨_, hmem, rfl⟩)
      rw [if_neg hne]
      exact ih hnodup.2 hmem

section Named

variable {α : Type} {f : HostRef → α} {found : List Hoisted} {names : List (String × α)}

/-- A listed object is found under its name. -/
theorem lookup_named (h : Declares found) {object : HostRef} (hlists : Lists found object) :
    (named f found ++ names).lookup (nameIn found object) = some (f object) := by
  obtain ⟨known, hknown, rfl, hname⟩ := exists_nameIn hlists
  have hnodup : ((named f found).map Prod.fst).Nodup := by
    rw [named, List.map_reverse, List.nodup_reverse]
    simpa [Function.comp_def] using h.names_nodup
  have hmem : (known.name, f known.object) ∈ named f found :=
    List.mem_reverse.2 (List.mem_map.2 ⟨known, hknown, rfl⟩)
  rw [List.lookup_append, hname, lookup_of_mem hnodup hmem]
  rfl

/-- The names of lookups do not hide names of the source. -/
theorem le_named_append (h : Declares found)
    (hnames : ∀ b ∈ names, hasDoubleUnderscore b.1.toList = false) :
    Names.Le names (named f found ++ names) := by
  intro x a hx
  have hsource : hasDoubleUnderscore x.toList = false := by
    obtain ⟨before, behind, heq, -⟩ := List.lookup_eq_some_iff.1 hx
    exact hnames (x, a) (by rw [heq]; simp)
  have hnone : (named f found).lookup x = none := by
    rw [List.lookup_eq_none_iff]
    intro b hb
    obtain ⟨known, hknown, rfl⟩ := List.mem_map.1 (List.mem_reverse.1 hb)
    obtain ⟨index, hname⟩ := h.exists_name hknown
    rw [bne_iff_ne]
    rintro rfl
    simp only [hname, hasDoubleUnderscore_hoistedName] at hsource
    cases hsource
  rw [List.lookup_append, hnone, Option.none_or, hx]

end Named

/-! ### Types and values -/

/-- The objects among some values are found under their names, which are no names of the source. -/
def Finds {α : Type} (found : List Hoisted) (f : Value → α) (names : List (String × α))
    (values : List Value) : Prop :=
  ∀ v ∈ values, ∀ object, v.object? = some object →
    hasDoubleUnderscore (nameIn found object).toList = true ∧
      names.lookup (nameIn found object) = some (f v)

/-- Bindings of the source do not hide lookups. -/
theorem Finds.cons {α : Type} {found : List Hoisted} {f : Value → α} {names : List (String × α)}
    {values : List Value} (h : Finds found f names values) {name : String}
    (hname : hasDoubleUnderscore name.toList = false) (a : α) :
    Finds found f ((name, a) :: names) values := by
  intro v hv object hobject
  obtain ⟨hunder, hlookup⟩ := h v hv object hobject
  refine ⟨hunder, ?_⟩
  rw [lookup_cons_ite, if_neg, hlookup]
  rintro rfl
  rw [hname] at hunder
  cases hunder

/-- The variables of a well-typed tree are names of the scope or names that the tree binds. -/
theorem forall_mem_vars {P : String → Prop} {e : Expr} {scope : Scope} {ty : ValueType}
    (h : inferIn scope e = .ok ty) (hscope : ∀ b ∈ scope, P b.1) (hbound : ∀ x ∈ e.boundNames, P x) :
    ∀ x ∈ e.vars, P x := by
  induction e using treeInduction generalizing scope ty with
  | const value => exact fun x hx => nomatch hx
  | var name =>
    obtain ⟨before, behind, heq, -⟩ := List.lookup_eq_some_iff.1 (inferIn_var.1 h)
    exact List.forall_mem_singleton.2 (hscope (name, ty) (by rw [heq]; simp))
  | member inner field ih =>
    obtain ⟨t, hinner, -⟩ := inferIn_member.1 h
    exact ih hinner hscope hbound
  | unary op inner ih =>
    obtain ⟨t, hinner, -⟩ := inferIn_unary.1 h
    exact ih hinner hscope hbound
  | binary op left right ihl ihr =>
    obtain ⟨l, r, hl, hr, -⟩ := inferIn_binary.1 h
    obtain ⟨hbl, hbr⟩ := List.forall_mem_append.1 hbound
    exact List.forall_mem_append.2 ⟨ihl hl hscope hbl, ihr hr hscope hbr⟩
  | branch cond yes no ihc ihy ihn =>
    obtain ⟨hc, hy, hn⟩ := inferIn_branch.1 h
    obtain ⟨hbcy, hbn⟩ := List.forall_mem_append.1 hbound
    obtain ⟨hbc, hby⟩ := List.forall_mem_append.1 hbcy
    exact List.forall_mem_append.2 ⟨List.forall_mem_append.2 ⟨ihc hc hscope hbc, ihy hy hscope hby⟩,
      ihn hn hscope hbn⟩
  | bind name value body ihv ihb =>
    obtain ⟨t, hv, hb⟩ := inferIn_bind.1 h
    obtain ⟨hname, hbound⟩ := List.forall_mem_cons.1 hbound
    obtain ⟨hbv, hbb⟩ := List.forall_mem_append.1 hbound
    have hscope' : ∀ b ∈ (name, t) :: scope, P b.1 := List.forall_mem_cons.2 ⟨hname, hscope⟩
    exact List.forall_mem_append.2 ⟨ihv hv hscope hbv, ihb hb hscope' hbb⟩
  | call func args ih =>
    obtain ⟨tys, hargs, -⟩ := inferIn_call.1 h
    change ∀ x ∈ boundNamesList args, P x at hbound
    change ∀ x ∈ varsList args, P x
    clear h
    induction hargs with
    | nil => exact fun x hx => nomatch hx
    | @cons e t es tys he _ ihes =>
      obtain ⟨hbe, hbes⟩ := List.forall_mem_append.1 hbound
      exact List.forall_mem_append.2 ⟨ih e (by simp) he hscope hbe,
        ihes (fun e he => ih e (by simp [he])) hbes⟩

variable {found : List Hoisted}

/-- A tree with names in the place of objects has the type of the tree. -/
theorem inferIn_withNames {e : Expr} {scope scope' : Scope} {ty : ValueType}
    (h : inferIn scope e = .ok ty) (hle : Names.Le scope scope')
    (hfinds : Finds found Value.type scope' e.objects)
    (hbound : ∀ x ∈ e.boundNames, hasDoubleUnderscore x.toList = false) :
    inferIn scope' (withNames found e) = .ok ty := by
  induction e using treeInduction generalizing scope scope' ty with
  | const value =>
    unfold withNames
    cases hobject : value.object? with
    | none => exact h
    | some object =>
      have hlookup := (hfinds value (by simp [objects, hobject]) object hobject).2
      rw [inferIn_const.1 h] at hlookup
      exact inferIn_var.2 hlookup
  | var name => exact inferIn_var.2 (hle name ty (inferIn_var.1 h))
  | member inner field ih =>
    obtain ⟨t, hinner, hfield⟩ := inferIn_member.1 h
    exact inferIn_member.2 ⟨t, ih hinner hle hfinds hbound, hfield⟩
  | unary op inner ih =>
    obtain ⟨t, hinner, hop⟩ := inferIn_unary.1 h
    exact inferIn_unary.2 ⟨t, ih hinner hle hfinds hbound, hop⟩
  | binary op left right ihl ihr =>
    obtain ⟨l, r, hl, hr, hop⟩ := inferIn_binary.1 h
    obtain ⟨hfl, hfr⟩ := List.forall_mem_append.1 hfinds
    obtain ⟨hbl, hbr⟩ := List.forall_mem_append.1 hbound
    exact inferIn_binary.2 ⟨l, r, ihl hl hle hfl hbl, ihr hr hle hfr hbr, hop⟩
  | branch cond yes no ihc ihy ihn =>
    obtain ⟨hc, hy, hn⟩ := inferIn_branch.1 h
    obtain ⟨hfcy, hfn⟩ := List.forall_mem_append.1 hfinds
    obtain ⟨hfc, hfy⟩ := List.forall_mem_append.1 hfcy
    obtain ⟨hbcy, hbn⟩ := List.forall_mem_append.1 hbound
    obtain ⟨hbc, hby⟩ := List.forall_mem_append.1 hbcy
    exact inferIn_branch.2 ⟨ihc hc hle hfc hbc, ihy hy hle hfy hby, ihn hn hle hfn hbn⟩
  | bind name value body ihv ihb =>
    obtain ⟨t, hv, hb⟩ := inferIn_bind.1 h
    obtain ⟨hfv, hfb⟩ := List.forall_mem_append.1 hfinds
    obtain ⟨hname, hbound⟩ := List.forall_mem_cons.1 hbound
    obtain ⟨hbv, hbb⟩ := List.forall_mem_append.1 hbound
    have hfb' : Finds found Value.type scope' body.objects := hfb
    exact inferIn_bind.2 ⟨t, ihv hv hle hfv hbv, ihb hb (hle.cons name t) (hfb'.cons hname t) hbb⟩
  | call func args ih =>
    obtain ⟨tys, hargs, htype⟩ := inferIn_call.1 h
    refine inferIn_call.2 ⟨tys, ?_, htype⟩
    change Finds found Value.type scope' (objectsList args) at hfinds
    change ∀ x ∈ boundNamesList args, _ at hbound
    clear h htype
    induction hargs with
    | nil => exact .nil
    | @cons e t es tys he _ ihes =>
      obtain ⟨hfe, hfes⟩ := List.forall_mem_append.1 hfinds
      obtain ⟨hbe, hbes⟩ := List.forall_mem_append.1 hbound
      refine .cons (ih e (by simp) he hle hfe hbe) ?_
      exact ihes (fun e he => ih e (by simp [he])) hfes hbes

variable {order : FloatOrder} {hosts : Hosts}

/-- Over an environment that holds the objects of a tree, the tree with names in their place has the same
value. -/
theorem eval_withNames {e : Expr} {env env' : Env} {P : Value → Prop} (hle : env.Le env')
    (hfinds : Finds found id env' e.objects)
    (hbound : ∀ x ∈ e.boundNames, hasDoubleUnderscore x.toList = false)
    (h : (eval order hosts env e).Satisfies P) :
    eval order hosts env' (withNames found e) = eval order hosts env e := by
  induction e using treeInduction generalizing env env' P with
  | const value =>
    unfold withNames
    cases hobject : value.object? with
    | none => rfl
    | some object =>
      simp only [eval, (hfinds value (by simp [objects, hobject]) object hobject).2]
      rfl
  | var name => exact eval_mono (e := var name) hle h
  | member inner field ih => exact Except.bind_congr h (ih hle hfinds hbound) fun _ _ _ => rfl
  | unary op inner ih => exact Except.bind_congr h (ih hle hfinds hbound) fun _ _ _ => rfl
  | binary op left right ihl ihr =>
    obtain ⟨hfl, hfr⟩ := List.forall_mem_append.1 hfinds
    obtain ⟨hbl, hbr⟩ := List.forall_mem_append.1 hbound
    refine Except.bind_congr h (ihl hle hfl hbl) fun l _ h => ?_
    exact Except.bind_congr h (ihr hle hfr hbr) fun _ _ _ => rfl
  | branch cond yes no ihc ihy ihn =>
    obtain ⟨hfcy, hfn⟩ := List.forall_mem_append.1 hfinds
    obtain ⟨hfc, hfy⟩ := List.forall_mem_append.1 hfcy
    obtain ⟨hbcy, hbn⟩ := List.forall_mem_append.1 hbound
    obtain ⟨hbc, hby⟩ := List.forall_mem_append.1 hbcy
    refine Except.bind_congr h (ihc hle hfc hbc) fun value _ h => ?_
    refine Except.bind_congr h (fun _ => rfl) fun b _ h => ?_
    cases b with
    | true => exact ihy hle hfy hby h
    | false => exact ihn hle hfn hbn h
  | bind name value body ihv ihb =>
    obtain ⟨hfv, hfb⟩ := List.forall_mem_append.1 hfinds
    obtain ⟨hname, hbound⟩ := List.forall_mem_cons.1 hbound
    obtain ⟨hbv, hbb⟩ := List.forall_mem_append.1 hbound
    have hfb' : Finds found id env' body.objects := hfb
    refine Except.bind_congr h (ihv hle hfv hbv) fun x _ h => ?_
    exact ihb (hle.cons name x) (hfb'.cons hname x) hbb h
  | call func args ih =>
    refine eval_call_congr func ?_ h
    change Finds found id env' (objectsList args) at hfinds
    change ∀ x ∈ boundNamesList args, _ at hbound
    clear h
    induction args with
    | nil => exact .nil
    | cons e es ihes =>
      obtain ⟨hfe, hfes⟩ := List.forall_mem_append.1 hfinds
      obtain ⟨hbe, hbes⟩ := List.forall_mem_append.1 hbound
      refine .cons (fun h => ih e (by simp) hle hfe hbe h) ?_
      exact ihes (fun e he => ih e (by simp [he])) hfes hbes

end Expr

end Barrage
