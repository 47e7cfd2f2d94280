import Barrage.Number.Layout
import Barrage.Text.Quoted

/-!
# Host objects

Scripts refer to timers by name and to entities by id. A lookup hands out a handle, and a handle keeps
denoting the object it was made for: looking a timer up twice gives the same handle, and registering an
entity under an id that is taken gives later lookups the new entity while old handles keep the old one.

## Main definitions

* `TimerHandle`, `EntityHandle`: what a lookup hands out
* `Hosts`: all timers and entities that exist
* `Hosts.timer`, `Hosts.entity?`: the lookups; the first creates what it does not find
* `Hosts.advance`, `Hosts.restart`: the passage of time
-/

namespace Barrage

/-- A point or direction of the plane. -/
structure Vec2 where
  x : Float
  y : Float
deriving BEq, Repr

namespace Vec2

/-- The origin. -/
def zero : Vec2 := ⟨0.0, 0.0⟩

/-- Euclidean length. -/
def length (v : Vec2) : Float := Float.sqrt (v.x * v.x + v.y * v.y)

instance : Add Vec2 := ⟨fun a b => ⟨a.x + b.x, a.y + b.y⟩⟩
instance : Sub Vec2 := ⟨fun a b => ⟨a.x - b.x, a.y - b.y⟩⟩
instance : Neg Vec2 := ⟨fun a => ⟨-a.x, -a.y⟩⟩

/-- The vector with both coordinates multiplied by a number. -/
def scale (v : Vec2) (k : Float) : Vec2 := ⟨v.x * k, v.y * k⟩

/-- The vector with both coordinates divided by a number. -/
def divide (v : Vec2) (k : Float) : Vec2 := ⟨v.x / k, v.y / k⟩

end Vec2

/-- A timer, by its place among all timers; the name is the one it was looked up by. -/
structure TimerHandle where
  slot : Nat
  name : String
deriving DecidableEq, Repr

/-- An entity, by its place among all entities ever registered. -/
structure EntityHandle where
  slot : Nat
  id : String
deriving DecidableEq, Repr

/-- State of a timer. -/
structure Timer where
  name : String
  elapsed : Float
  paused : Bool

/-- State of an entity. -/
structure Entity where
  id : String
  hp : Float
  position : Vec2

namespace Timer

/-- A new timer stands at zero and runs. -/
def new (name : String) : Timer := ⟨name, 0.0, false⟩

/-- Adds a duration unless the timer is paused. -/
def advance (dt : Float) (t : Timer) : Timer :=
  if t.paused then t else { t with elapsed := t.elapsed + dt }

/-- Sets the timer to zero and lets it run. -/
def restart (t : Timer) : Timer := { t with elapsed := 0.0, paused := false }

/-- The timer as messages show it, with three decimals. -/
def describe (t : Timer) : String := "Timer(" ++ t.name ++ ", " ++ fixedPlaces 3 t.elapsed ++ "s)"

end Timer

namespace Entity

/-- Takes hit points away, down to zero. -/
def damage (amount : Float) (e : Entity) : Entity := { e with hp := atLeastZero (e.hp - amount) }

/-- The entity as messages show it. -/
def describe (e : Entity) : String :=
  "Entity(" ++ e.id ++ ", hp=" ++ FloatLayout.plain.render e.hp ++ ")"

end Entity

/-- All host objects: the timers in the order of their creation, and the entities in the order of
their registration. -/
structure Hosts where
  timers : List Timer := []
  entities : List Entity := []

namespace Hosts

/-- No objects. -/
def empty : Hosts := {}

/-- Place of the timer with a name, if it exists. -/
def timerSlot? (hosts : Hosts) (name : String) : Option Nat :=
  hosts.timers.findIdx? (·.name == name)

/-- The timer with a name; it is created if there is none. -/
def timer (hosts : Hosts) (name : String) : TimerHandle × Hosts :=
  match hosts.timerSlot? name with
  | some slot => (⟨slot, name⟩, hosts)
  | none => (⟨hosts.timers.length, name⟩, { hosts with timers := hosts.timers ++ [Timer.new name] })

/-- The entity registered under an id: the latest one. -/
def entity? (hosts : Hosts) (id : String) : Option EntityHandle :=
  (hosts.entities.reverse.findIdx? (·.id == id)).map fun back =>
    ⟨hosts.entities.length - 1 - back, id⟩

/-- Registers a new entity under its id. -/
def register (hosts : Hosts) (entity : Entity) : EntityHandle × Hosts :=
  (⟨hosts.entities.length, entity.id⟩, { hosts with entities := hosts.entities ++ [entity] })

/-- State of the timer a handle denotes. -/
def timerOf (hosts : Hosts) (handle : TimerHandle) : Timer :=
  hosts.timers.getD handle.slot (Timer.new handle.name)

/-- State of the entity a handle denotes. -/
def entityOf (hosts : Hosts) (handle : EntityHandle) : Entity :=
  hosts.entities.getD handle.slot ⟨handle.id, 0.0, Vec2.zero⟩

/-- Changes the timer a handle denotes. -/
def updateTimer (hosts : Hosts) (handle : TimerHandle) (f : Timer → Timer) : Hosts :=
  { hosts with timers := hosts.timers.modify handle.slot f }

/-- Changes the entity a handle denotes. -/
def updateEntity (hosts : Hosts) (handle : EntityHandle) (f : Entity → Entity) : Hosts :=
  { hosts with entities := hosts.entities.modify handle.slot f }

/-- Lets time pass for every running timer. -/
def advance (hosts : Hosts) (dt : Float) : Hosts :=
  { hosts with timers := hosts.timers.map (Timer.advance dt) }

/-- Restarts every timer. -/
def restart (hosts : Hosts) : Hosts :=
  { hosts with timers := hosts.timers.map Timer.restart }

/-- Hit points of an entity. -/
def hp (hosts : Hosts) (handle : EntityHandle) : Float := (hosts.entityOf handle).hp

/-- Sets the hit points of an entity. -/
def setHp (hosts : Hosts) (handle : EntityHandle) (hp : Float) : Hosts :=
  hosts.updateEntity handle fun e => { e with hp }

/-- Takes hit points from an entity. -/
def damage (hosts : Hosts) (handle : EntityHandle) (amount : Float) : Hosts :=
  hosts.updateEntity handle (Entity.damage amount)

end Hosts

end Barrage
