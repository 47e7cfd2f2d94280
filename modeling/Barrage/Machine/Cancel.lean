/-!
# Cancellation

Whoever starts something keeps a source; whoever runs it holds a token of that source. A token may be
linked to several sources and is cancelled as soon as one of them is. Sources are numbered in the order
they are made, and never become live again.

## Main definitions

* `SourceState`, `Sources`: the states of all sources
* `CancelToken`: the sources something depends on
* `Sources.cancel`, `Sources.expire`: the two ways in which a source ends
-/

namespace Barrage

/-- State of a source. -/
inductive SourceState where
  | live
  /-- Ended by whoever holds it. -/
  | cancelled
  /-- Ended because its time was up. -/
  | expired
deriving DecidableEq, Repr

/-- The states of all sources, by number. -/
structure Sources where
  states : List SourceState := []
deriving Repr

namespace Sources

/-- Makes a source. -/
def make (s : Sources) : Nat × Sources := (s.states.length, ⟨s.states ++ [.live]⟩)

/-- Ends a live source in some way. A source that has ended stays as it is. -/
def finish (state : SourceState) (source : Nat) (s : Sources) : Sources :=
  ⟨s.states.modify source fun old => if old = .live then state else old⟩

/-- Cancels a source. -/
def cancel (source : Nat) (s : Sources) : Sources := s.finish .cancelled source

/-- Ends a source because its time is up. -/
def expire (source : Nat) (s : Sources) : Sources := s.finish .expired source

/-- Whether a source has ended. -/
def isCancelled (s : Sources) (source : Nat) : Bool :=
  match s.states[source]? with
  | some state => state != .live
  | none => false

/-- Whether a source has ended because its time was up. -/
def isExpired (s : Sources) (source : Nat) : Bool := s.states[source]? == some .expired

end Sources

/-- The sources that something depends on, each once. -/
structure CancelToken where
  sources : List Nat
deriving DecidableEq, Repr

namespace CancelToken

/-- A token that nothing cancels. -/
def none : CancelToken := ⟨[]⟩

/-- The token of one source. -/
def ofSource (source : Nat) : CancelToken := ⟨[source]⟩

/-- Adds the sources of a token to a list. -/
def addSources (known : List Nat) (token : CancelToken) : List Nat :=
  token.sources.foldl (fun known source => if known.contains source then known else known ++ [source])
    known

/-- A token that any of some tokens cancels. -/
def linked (tokens : List CancelToken) : CancelToken := ⟨tokens.foldl addSources []⟩

/-- Whether one of the sources has ended. -/
def isCancelled (token : CancelToken) (s : Sources) : Bool := token.sources.any s.isCancelled

/-- A token as messages show it. -/
def describe (token : CancelToken) (s : Sources) : String :=
  s!"CancelToken(sources={token.sources.length}, cancelled={token.isCancelled s})"

end CancelToken

end Barrage
