import OnMesh.ContextPool
import OnMesh.Wire.Frame

/-!
# Node settings

What a node is built with.  All context ids of the range must be usable at once,
so that the whole data still fit one frame.
-/

namespace OnMesh

open Wire (Frame)

structure NodeSettings where
  contextRange : ContextRange
  /-- The ticks that a context id is held after it came back. -/
  reuseDelay : Nat
  /-- The most frames that wait to be handled. -/
  maxInbound : Nat
  /-- The most frames that wait to be sent. -/
  maxOutbound : Nat
deriving DecidableEq, Inhabited

namespace NodeSettings

def usual : NodeSettings :=
  ⟨ContextRange.usual, ContextPool.usualDelay, 1000, 1000⟩

/-- Accept settings with a range that is not empty, leaves id 0 out
and fits one frame. -/
def validate (s : NodeSettings) : Except Fault Unit :=
  let r := s.contextRange
  if r.high.value < r.low.value || r.low.value == 0 then
    .error (.invalidSettings (.unusableRange r.low r.high))
  else if Frame.maxContexts < r.size then
    .error
      (.invalidSettings (.rangeTooWide r.low r.high r.size Frame.maxContexts))
  else .ok ()

def pool (s : NodeSettings) : ContextPool :=
  ContextPool.make s.contextRange s.reuseDelay

end NodeSettings

end OnMesh
