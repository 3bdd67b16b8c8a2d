import OnMesh.Mesh

/-!
# The outage certification

A leader publishes two prefixes to an end device, possibly over a chain of
relays.  The first one arrives and the device answers on it.  Then the device
and its uplink drop each other while the second one is published.  The uplink
admits the device first, then the device the uplink, and the device has to catch
up and answer on both prefixes.
-/

namespace OnMesh

namespace Certification

def leader : Station := ⟨1⟩

def device : Station := ⟨2⟩

def firstText : String := "2001:2:0:1::/64"

def secondText : String := "2001:2:0:2::/64"

def flagsText : String := "paros"

/-- What a certification is run with. -/
structure Settings where
  mesh : Mesh.Settings
  /-- The most ticks that each wait may take. -/
  settleTicks : Nat
  /-- The relays between leader and end device. -/
  relays : UInt32
deriving DecidableEq, Inhabited

def Settings.usual : Settings := ⟨Mesh.Settings.usual, 100, 0⟩

/-- The station of the relay with a number from 1 on. -/
def relay (r : UInt32) : Station := ⟨device.number + r⟩

/-- The neighbour of the end device on the way to the leader. -/
def Settings.uplink (s : Settings) : Station :=
  if s.relays = 0 then leader else relay s.relays

structure Verdict where
  /-- The version that the end device holds at the end. -/
  finalVersion : Version
  /-- The number of addresses that the end device has at the end. -/
  addresses : Nat
  /-- The ticks spent waiting. -/
  ticks : Nat
  /-- The checks that failed, in order. -/
  violations : List String
deriving DecidableEq, Inhabited

def Verdict.passed (v : Verdict) : Bool := v.violations.isEmpty

structure Progress where
  mesh : Mesh
  verdict : Verdict

/-- The steps of a certification; a fault ends it. -/
abbrev Run := StateT Progress (Except Fault)

def call {α : Type} (act : Mesh → Except Fault α × Mesh) : Run α := do
  let p ← get
  let (answer, mesh) := act p.mesh
  set { p with mesh }
  match answer with
  | .ok a => return a
  | .error fault => throw fault

/-- Look something up in the mesh. -/
def ask {α : Type} (question : Mesh → Except Fault α) : Run α :=
  call fun m => (question m, m)

def check (ok : Bool) (violation : String) : Run Unit :=
  if ok then return ()
  else modify fun p =>
    { p with
      verdict := { p.verdict with
        violations := p.verdict.violations ++ [violation] } }

/-- Wait until nothing is in flight, and count the ticks. -/
def settle (mostTicks : Nat) (stage : String) : Run Unit := do
  let settled ← call fun m =>
    let (settled, m) := m.settle mostTicks
    (.ok settled, m)
  modify fun p =>
    { p with
      verdict := { p.verdict with
        ticks := p.verdict.ticks + settled.getD mostTicks } }
  check settled.isSome (stage ++ ": traffic did not settle")

/-- Check that the leader reaches the end device at its address of a prefix. -/
def checkPingable (net : Prefix) (stage : String) : Run Unit := do
  let addresses ← ask fun m => m.configuredAddresses device
  match addresses.find? fun a => a.net = net with
  | some a =>
    let answered ← ask fun m => .ok (m.echo leader a.addr)
    check answered (stage ++ ": " ++ a.addr.text ++ " not pingable")
  | none => check false (stage ++ ": no address in " ++ net.text)

/-- Check that the end device holds a version, and answer the one it holds. -/
def checkVersion (expected : Version) (stage : String) : Run Version := do
  let held ← ask fun m => m.version device
  check (held == expected) (stage ++ " end device at " ++ held.tagged)
  return held

/-- Add so many relays, each behind the one before, and answer the last
station of the chain. -/
def addRelays : Nat → UInt32 → Station → Run Station
  | 0, _, last => return last
  | count + 1, number, last => do
    let _ ← call fun m => m.addNode (relay number) .relay
    call fun m => m.link last (relay number)
    addRelays count (number + 1) (relay number)

/-- Build the mesh and let all nodes attach. -/
def attach (s : Settings) : Run Unit := do
  let _ ← call fun m => m.addNode leader .authority
  let _ ← call fun m => m.addNode device .leaf
  let last ← addRelays s.relays.toNat 1 leader
  call fun m => m.link last device
  call fun m => (.ok (), m.startAll)
  settle s.settleTicks "attach"
  let leaderState ← ask fun m => m.attachment leader
  check (leaderState == .leader) ("leader state is " ++ leaderState.text)
  let deviceState ← ask fun m => m.attachment device
  check (deviceState == .child) ("end device state is " ++ deviceState.text)

def stages (s : Settings) (first second : Prefix) (flags : Flags) : Run Unit :=
  do
  attach s
  let v1 ← call fun m => m.addPrefix leader first flags
  settle s.settleTicks "publish P1"
  let _ ← checkVersion v1 "after P1"
  checkPingable first "after P1"
  let _ ← call fun m => m.setAdmissible s.uplink device false
  let _ ← call fun m => m.setAdmissible device s.uplink false
  let v2 ← call fun m => m.addPrefix leader second flags
  settle s.settleTicks "publish P2"
  let _ ← checkVersion v1 "during outage"
  let _ ← call fun m => m.setAdmissible s.uplink device true
  settle s.settleTicks "restore uplink side"
  let _ ← call fun m => m.setAdmissible device s.uplink true
  settle s.settleTicks "restore end device side"
  let held ← checkVersion v2 "after restore"
  checkPingable first "after restore"
  checkPingable second "after restore"
  let addresses ← ask fun m => m.configuredAddresses device
  modify fun p =>
    { p with
      verdict := { p.verdict with
        finalVersion := held
        addresses := addresses.length } }

/-- Run the certification.  Faults of the set-up end it, failed
checks are collected. -/
def run (s : Settings) : Except Fault Verdict := do
  let first ← Prefix.parse firstText
  let second ← Prefix.parse secondText
  let flags ← Flags.parse flagsText
  let (_, p) ← (stages s first second flags).run
    ⟨Mesh.make s.mesh, ⟨Version.initial, 0, 0, []⟩⟩
  return p.verdict

end Certification

end OnMesh
