import OnMesh.Ident
import OnMesh.Text.Quoted

/-!
# Faults

Everything that a call can be refused for, as causes.  The wording of a cause is
in one place, `Fault.message`.
-/

namespace OnMesh

/-- Why a prefix is no prefix. -/
inductive PrefixIssue where
  | noLength (text : String)
  | badAddress (text : String)
  | badLength (text : String)
  | tooLong (length : Nat)
  | stated (text : String)
deriving DecidableEq

def PrefixIssue.text : PrefixIssue → String
  | noLength text => "missing length in " ++ Quoted.text text
  | badAddress text => "bad address in " ++ Quoted.text text
  | badLength text => "bad length in " ++ Quoted.text text
  | tooLong length => "length " ++ toString length ++ " > 128"
  | stated text => text

/-- Why a text names no set of flags. -/
inductive FlagsIssue where
  | unknownLetter (letter : Char) (text : String)
  | stated (text : String)
deriving DecidableEq

def FlagsIssue.text : FlagsIssue → String
  | unknownLetter letter text =>
    "unknown flag " ++ Quoted.letter letter ++ " in " ++ Quoted.text text
  | stated text => text

/-- Why bytes are no frame, or a frame has no bytes. -/
inductive WireIssue where
  | unsupportedVersion (version : UInt8)
  | lengthMismatch (announced remaining : Nat)
  | trailing (count : Nat)
  | notAdvancing (base target : Version)
  | tooManyEntries (count : Nat)
  | tooLarge (size limit : Nat)
  | stated (text : String)
deriving DecidableEq

def WireIssue.text : WireIssue → String
  | unsupportedVersion version =>
    "unsupported wire version " ++ toString version.toNat
  | lengthMismatch announced remaining =>
    "payload length " ++ toString announced ++ " does not match " ++
      toString remaining ++
      " remaining bytes"
  | trailing count => toString count ++ " trailing bytes"
  | notAdvancing base target =>
    "delta does not advance: " ++ base.tagged ++ " -> " ++ target.tagged
  | tooManyEntries count => "too many entries: " ++ toString count
  | tooLarge size limit =>
    "Frame too large: " ++ toString size ++ " > " ++ toString limit
  | stated text => text

/-- Why a node cannot be built with its settings. -/
inductive SettingsIssue where
  | unusableRange (low high : ContextId)
  | rangeTooWide (low high : ContextId) (count most : Nat)
  | stated (text : String)
deriving DecidableEq

def SettingsIssue.text : SettingsIssue → String
  | unusableRange low high =>
    "context range " ++ low.text ++ "..=" ++ high.text ++
      " must be non-empty and exclude id 0"
  | rangeTooWide low high count most =>
    "context range " ++ low.text ++ "..=" ++ high.text ++ " allows " ++
      toString count ++
      " ids, a frame carries at most " ++ toString most
  | stated text => text

inductive Fault where
  /-- The node may not author network data. -/
  | notAuthority (node : NodeId)
  /-- No context id is free. -/
  | exhaustedContexts
  /-- The prefix, given by its text, is not published. -/
  | unknownPrefix (text : String)
  /-- The delta ends at a version that is already held. -/
  | staleDelta (target held : Version)
  /-- The delta starts at another version than the one held. -/
  | gapDetected (base held : Version)
  | invalidPrefix (issue : PrefixIssue)
  | invalidFlags (issue : FlagsIssue)
  | invalidWire (issue : WireIssue)
  /-- Fewer bytes are left than are needed. -/
  | tooShort (expected actual : Nat)
  | unknownKind (byte : UInt8)
  | invalidSettings (issue : SettingsIssue)
  | nodeNotFound (node : NodeId)
  /-- The host no longer takes commands. -/
  | hostClosed
  /-- The generator of hardware addresses yields nothing that is unused. -/
  | noHardwareId
deriving DecidableEq

namespace Fault

def kind : Fault → String
  | notAuthority _ => "NotAuthority"
  | exhaustedContexts => "ExhaustedContexts"
  | unknownPrefix _ => "UnknownPrefix"
  | staleDelta .. => "StaleDelta"
  | gapDetected .. => "GapDetected"
  | invalidPrefix _ => "InvalidPrefix"
  | invalidFlags _ => "InvalidFlags"
  | invalidWire _ => "InvalidWireFormat"
  | tooShort .. => "BufferTooShort"
  | unknownKind _ => "UnknownMessageKind"
  | invalidSettings _ => "InvalidConfig"
  | nodeNotFound _ => "NodeNotFound"
  | hostClosed => "ServiceClosed"
  | noHardwareId => "NoHardwareId"

def message : Fault → String
  | notAuthority node =>
    "Not authority: node " ++ node.text ++ " cannot publish network data"
  | exhaustedContexts => "Context ids exhausted"
  | unknownPrefix text => "Unknown prefix: " ++ text
  | staleDelta target held =>
    "Stale delta: to " ++ target.tagged ++ " while holding " ++ held.tagged
  | gapDetected base held =>
    "Gap detected: delta starts at " ++ base.tagged ++
      " while holding " ++ held.tagged
  | invalidPrefix issue => "Invalid prefix: " ++ issue.text
  | invalidFlags issue => "Invalid prefix flags: " ++ issue.text
  | invalidWire issue => "Invalid wire format: " ++ issue.text
  | tooShort expected actual =>
    "Buffer too short: expected " ++ toString expected ++
      ", got " ++ toString actual
  | unknownKind byte => "Unknown message kind: " ++ toString byte.toNat
  | invalidSettings issue => "Invalid configuration: " ++ issue.text
  | nodeNotFound node => "Node not found: " ++ node.text
  | hostClosed => "Node service closed"
  | noHardwareId => "No unused hardware address"

/-- Faults that only steer the flooding of network data and never reach a
caller. -/
def isInternal : Fault → Bool
  | staleDelta .. | gapDetected .. => true
  | _ => false

end Fault

end OnMesh
