import OnMesh.Replica

/-!
# Context ids on loan

The authority lends context ids to prefixes, lowest first, out of a small range.
An id that comes back is held for a number of ticks, so that no dependent with
the version before reads an address under an id that has changed its meaning.
-/

namespace OnMesh

/-- The ids from `low` to `high`, both included. -/
structure ContextRange where
  low : ContextId
  high : ContextId
deriving DecidableEq, Inhabited

namespace ContextRange

def size (r : ContextRange) : Nat := r.high.value.toNat + 1 - r.low.value.toNat

def ids (r : ContextRange) : List ContextId :=
  (List.range r.size).map fun i => ⟨UInt8.ofNat (r.low.value.toNat + i)⟩

/-- The range that is used where nothing else is asked for; id 0 is kept
for the mesh itself. -/
def usual : ContextRange := ⟨⟨1⟩, ⟨15⟩⟩

end ContextRange

structure ContextPool where
  range : ContextRange
  /-- The ticks that an id is held after it came back. -/
  reuseDelay : Nat
  /-- Ids on loan and the prefixes that they stand for. -/
  live : Table ContextId Prefix
  /-- Ids that came back, and when. -/
  retiring : Table ContextId Nat
  /-- The last tick seen. -/
  now : Nat
deriving DecidableEq, Inhabited

namespace ContextPool

def usualDelay : Nat := 8

def make (range : ContextRange) (reuseDelay : Nat) : ContextPool :=
  ⟨range, reuseDelay, Table.empty, Table.empty, 0⟩

def isLive (p : ContextPool) (id : ContextId) : Bool := p.live.contains id

def isRetiring (p : ContextPool) (id : ContextId) : Bool :=
  p.retiring.contains id

def lowestFree? (p : ContextPool) : Option ContextId :=
  p.range.ids.find? fun id => !p.isLive id && !p.isRetiring id

/-- The id of a prefix: the one that it has on loan, or else the lowest free
one. -/
def allocate (p : ContextPool) (net : Prefix) :
    Except Fault ContextId × ContextPool :=
  match p.live.find? fun _ q => q = net with
  | some (id, _) => (.ok id, p)
  | none =>
    match p.lowestFree? with
    | some id => (.ok id, { p with live := p.live.insert id net })
    | none => (.error .exhaustedContexts, p)

/-- Take an id back; it is held from the given tick on. -/
def release (p : ContextPool) (id : ContextId) (now : Nat) : ContextPool :=
  if p.isLive id then
    { p with live := p.live.erase id, retiring := p.retiring.insert id now }
  else p

/-- Whether an id that came back at `released` is held no longer. -/
def isDue (p : ContextPool) (now released : Nat) : Bool :=
  p.reuseDelay ≤ now - released

/-- Free the ids that were held long enough, and list them. -/
def expire (p : ContextPool) (now : Nat) : List ContextId × ContextPool :=
  let due := p.retiring.filter fun _ released => p.isDue now released
  (due.keys, { p with
    retiring := p.retiring.filter fun _ released => !p.isDue now released
    now })

/-- Lend out the id of a context that the data binds. -/
def lend (p : ContextPool) (c : ContextEntry) : ContextPool :=
  { p with live := p.live.insert c.id c.net, retiring := p.retiring.erase c.id }

/-- Follow a change of the data: removed contexts come back,
added ones are on loan. -/
def observe (p : ContextPool) (n : Notice) : ContextPool :=
  let returned := n.contextsRemoved.foldl (fun p id => p.release id p.now) p
  n.contextsAdded.foldl lend returned

def reset (p : ContextPool) : ContextPool :=
  { p with live := Table.empty, retiring := Table.empty }

end ContextPool

end OnMesh
