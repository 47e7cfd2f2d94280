import Barrage.Bake.Store

/-!
# Serving

While a source is open for serving, its units are handed out in the order of recording. Nothing but the
place decides which unit comes next; the signature that was recorded has to be the one that is asked for.

## Main definitions

* `Serving`: the units of a source, and how many have been handed out
* `Serving.next`: hands out the next unit
-/

namespace Barrage

/-- The units of a source, and how many of them have been handed out. -/
structure Serving where
  file : FileId
  units : List BakedUnit
  cursor : Nat := 0

namespace Serving

/-- The units of a source; that there are none is no error before one is asked for. -/
def load (file : FileId) (store : Store) : Except BakeError Serving := do
  .ok ⟨file, ← store.unitsFor file, 0⟩

/-- How many units are left. -/
def remaining (s : Serving) : Nat := s.units.length - s.cursor

/-- Hands out the next unit with some values fixed as its leading arguments. The expected signature
includes their parameters. A unit that does not fit is passed all the same. -/
def next (s : Serving) (expected : Signature) (proxies : List Value) :
    Except BakeError Callable × Serving :=
  match s.units[s.cursor]? with
  | none =>
    (.error (if s.units.isEmpty then .noBakedUnits s.file
      else .notEnoughBakedUnits s.file (s.cursor + 1) s.units.length), s)
  | some unit =>
    let position := s.cursor + 1
    let passed := { s with cursor := position }
    let mismatch (actual : String) : BakeError :=
      .typeMismatch s.file position s.units.length expected.text actual
    if unit.signature ≠ expected then (.error (mismatch unit.signature.text), passed)
    else
      match (Callable.ofUnit unit).bindLeading proxies with
      | .ok callable => (.ok callable, passed)
      | .error _ =>
        (.error (mismatch ("proxies (" ++ ValueType.names (proxies.map (·.type)) ++ ")")), passed)

end Serving

end Barrage
