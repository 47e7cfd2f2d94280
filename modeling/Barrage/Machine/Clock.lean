import Barrage.Number.Binary

/-!
# Frames

Time passes in frames of one length. Durations are rounded up to whole frames, but a duration that is only
a hair longer than some frames takes just those.
-/

namespace Barrage

/-- A counter of frames. -/
structure FrameClock where
  frameTime : Float
  frame : Nat := 0

namespace FrameClock

/-- How far a duration may reach into a frame that is not counted, as a part of the frame. -/
def tolerance : Float := 1e-6

/-- Goes on to the next frame. -/
def tick (c : FrameClock) : FrameClock := { c with frame := c.frame + 1 }

/-- Seconds since the first frame. -/
def seconds (c : FrameClock) : Float := Float.ofNat c.frame * c.frameTime

/-- How many frames a duration takes. An endless one takes as many as can be counted, and one that is no
number takes none. -/
def framesFor (c : FrameClock) (seconds : Float) : Nat :=
  if seconds ≤ 0.0 || seconds.isNaN then 0
  else if seconds.isInf then Binary.greatestWord
  else (Binary.ofFloat (seconds / c.frameTime - tolerance)).ceilToWord

end FrameClock

end Barrage
