import OnMesh.Proofs.Wire.Reading
import OnMesh.Wire.Frame
import Mathlib.Algebra.GroupWithZero.Nat

/-!
# What reading does step by step

A reader as a function does not show which bytes it looks at.  A script does: it
takes bytes, asks how many are left, is refused, or is done.  Running a script
gives a reader, and its takes are all the bytes that it asks for on the way.
The reader of frames is the run of a script.  On no byte string does that script
ask for more bytes than are left, and it asks for each byte once at most.
-/

namespace OnMesh.Wire

/-- A step that asks for bytes: how many, and how many are left at that time. -/
structure Take where
  wanted : Nat
  left : Nat
deriving DecidableEq

namespace Take

/-- A number of one, two, eight or sixteen bytes is asked for, and
its bytes are there. -/
structure Fits (t : Take) : Prop where
  width : t.wanted ∈ [1, 2, 8, 16]
  within : t.wanted ≤ t.left

/-- The second of two takes starts where the first one ends, or behind that. -/
def Before (t u : Take) : Prop := u.left + t.wanted ≤ t.left

/-- Takes one behind the other ask for no more bytes than there are in all. -/
theorem sum_wanted_le {ts : List Take} (hbefore : ts.Pairwise Before)
    (hfits : ∀ t ∈ ts, t.Fits) {most : Nat} (hmost : ∀ t ∈ ts, t.left ≤ most) :
    (ts.map wanted).sum ≤ most := by
  induction ts generalizing most with
  | nil => exact Nat.zero_le most
  | cons t ts ih =>
      obtain ⟨hfirst, hlater⟩ := List.pairwise_cons.1 hbefore
      obtain ⟨ht, hts⟩ := List.forall_mem_cons.1 hfits
      have hrest : (ts.map wanted).sum ≤ t.left - t.wanted := by
        refine ih hlater hts fun u hu => ?_
        have hbound : u.left + t.wanted ≤ t.left := hfirst u hu
        omega
      have hleft := hmost t List.mem_cons_self
      have hwithin := ht.within
      rw [List.map_cons, List.sum_cons]
      omega

end Take

/-- The steps of a reader. -/
inductive Script (α : Type) where
  | done (value : α)
  | refuse (fault : Fault)
  /-- Take so many bytes and go on with them. -/
  | take (count : Nat) (next : List UInt8 → Script α)
  /-- Go on with the number of bytes that are left. -/
  | remaining (next : Nat → Script α)

namespace Script

variable {α β : Type} {bs rest : List UInt8}

def bind : Script α → (α → Script β) → Script β
  | done value, k => k value
  | refuse fault, _ => refuse fault
  | take count next, k => take count fun front => (next front).bind k
  | remaining next, k => remaining fun left => (next left).bind k

instance : Monad Script where
  pure := done
  bind := bind

def demand : Except Fault α → (α → Script β) → Script β
  | .error fault, _ => refuse fault
  | .ok a, k => k a

def run : Script α → Reader α
  | done value => pure value
  | refuse fault => Reader.refuse fault
  | take count next => Reader.bytes count >>= fun front => (next front).run
  | remaining next => Reader.remaining >>= fun left => (next left).run

/-- The takes of a script on a byte string, first one first.  One that asks for
too much is the last one. -/
def takes : Script α → List UInt8 → List Take
  | done _, _ => []
  | refuse _, _ => []
  | take count next, bs =>
    ⟨count, bs.length⟩ :: match Reader.split? count bs with
      | none => []
      | some s => (next s.1).takes s.2
  | remaining next, bs => (next bs.length).takes bs

/-! ## Running -/

theorem run_bind (s : Script α) (k : α → Script β) :
    (s >>= k).run = s.run >>= fun a => (k a).run := by
  show (s.bind k).run = _
  induction s with
  | done value => rfl
  | refuse fault => rfl
  | take count next ih =>
      simp only [bind, run, bind_assoc]
      exact congrArg _ (funext ih)
  | remaining next ih =>
      simp only [bind, run, bind_assoc]
      exact congrArg _ (funext ih)

theorem run_ite {c : Prop} [Decidable c] (s t : Script α) :
    (if c then s else t).run = if c then s.run else t.run := apply_ite run c s t

variable {count : Nat} {next : List UInt8 → Script α}
  {split : List UInt8 × List UInt8}

theorem run_take_of_some (h : Reader.split? count bs = some split) :
    (take count next).run bs = (next split.1).run split.2 := by
  refine bind_of_reads ?_
  rw [Reads, Reader.bytes, h]

theorem run_remaining (next : Nat → Script α) (bs : List UInt8) :
    (remaining next).run bs = (next bs.length).run bs :=
  bind_of_reads (reads_remaining_iff.2 ⟨rfl, rfl⟩)

theorem split?_of_le (h : count ≤ bs.length) :
    Reader.split? count bs = some (bs.take count, bs.drop count) :=
  Reader.split?_eq_some_iff.2
    ⟨(List.take_append_drop count bs).symm, List.length_take_of_le h⟩

/-! ## Takes -/

theorem takes_take_of_some (h : Reader.split? count bs = some split) :
    (take count next).takes bs =
      ⟨count, bs.length⟩ :: (next split.1).takes split.2 := by
  rw [takes, h]

theorem takes_take_of_none (h : Reader.split? count bs = none) :
    (take count next).takes bs = [⟨count, bs.length⟩] := by
  rw [takes, h]

/-- The second of two scripts begins where the first one is done. -/
theorem mem_takes_bind {s : Script α} {k : α → Script β} {t : Take}
    (h : t ∈ (s >>= k).takes bs) :
    t ∈ s.takes bs ∨ ∃ a rest, Reads s.run bs a rest ∧
    t ∈ (k a).takes rest := by
  change t ∈ (s.bind k).takes bs at h
  induction s generalizing bs with
  | done value => exact Or.inr ⟨value, bs, rfl, h⟩
  | refuse fault => exact Or.inl h
  | take count next ih =>
      cases hsplit : Reader.split? count bs with
      | none =>
          rw [bind, takes_take_of_none hsplit] at h
          rw [takes_take_of_none hsplit]
          exact Or.inl h
      | some split =>
          rw [bind, takes_take_of_some hsplit] at h
          rw [takes_take_of_some hsplit]
          rcases List.mem_cons.1 h with hfirst | hlater
          · exact Or.inl (List.mem_cons.2 (Or.inl hfirst))
          · rcases ih split.1 hlater with hhere | ⟨a, rest, hreads, hthere⟩
            · exact Or.inl (List.mem_cons_of_mem _ hhere)
            · exact Or.inr ⟨a, rest,
                (run_take_of_some hsplit).trans hreads, hthere⟩
  | remaining next ih =>
      rcases ih bs.length h with hhere | ⟨a, rest, hreads, hthere⟩
      · exact Or.inl hhere
      · exact Or.inr ⟨a, rest, (run_remaining next bs).trans hreads, hthere⟩

/-- No step finds more bytes than there were. -/
theorem left_le_of_mem_takes {s : Script α} {t : Take} (h : t ∈ s.takes bs) :
    t.left ≤ bs.length := by
  induction s generalizing bs with
  | done value => cases h
  | refuse fault => cases h
  | take count next ih =>
      cases hsplit : Reader.split? count bs with
      | none =>
          rw [takes_take_of_none hsplit] at h
          cases List.mem_singleton.1 h
          exact Nat.le_refl _
      | some split =>
          rw [takes_take_of_some hsplit] at h
          obtain ⟨rfl, -⟩ := Reader.split?_eq_some_iff.1 hsplit
          rcases List.mem_cons.1 h with rfl | hlater
          · exact Nat.le_refl _
          · rw [List.length_append]
            exact Nat.le_add_left_of_le (ih split.1 hlater)
  | remaining next ih => exact ih bs.length h

/-- No script goes back, so it asks for each byte once at most. -/
theorem pairwise_takes (s : Script α) (bs : List UInt8) :
    (s.takes bs).Pairwise Take.Before := by
  induction s generalizing bs with
  | done value => exact List.Pairwise.nil
  | refuse fault => exact List.Pairwise.nil
  | take count next ih =>
      cases hsplit : Reader.split? count bs with
      | none =>
          rw [takes_take_of_none hsplit]
          exact List.pairwise_singleton _ _
      | some split =>
          rw [takes_take_of_some hsplit]
          obtain ⟨rfl, rfl⟩ := Reader.split?_eq_some_iff.1 hsplit
          refine List.Pairwise.cons (fun t ht => ?_) (ih split.1 split.2)
          have hleft := left_le_of_mem_takes ht
          show t.left + split.1.length ≤ (split.1 ++ split.2).length
          rw [List.length_append]
          omega
  | remaining next ih => exact ih bs.length bs

/-! ## Scripts that stay within the bytes -/

/-- Every number that the script asks for on a byte string is there. -/
def Fits (s : Script α) (bs : List UInt8) : Prop := ∀ t ∈ s.takes bs, t.Fits

theorem fits_pure (value : α) (bs : List UInt8) :
    (pure value : Script α).Fits bs :=
  fun _ ht => (by cases ht)

theorem fits_refuse (fault : Fault) (bs : List UInt8) :
    (refuse fault : Script α).Fits bs :=
  fun _ ht => (by cases ht)

theorem fits_bind {s : Script α} {k : α → Script β} (hs : s.Fits bs)
    (hk : ∀ a rest, Reads s.run bs a rest → (k a).Fits rest) :
    (s >>= k).Fits bs := by
  intro t ht
  rcases mem_takes_bind ht with hhere | ⟨a, rest, hreads, hthere⟩
  · exact hs t hhere
  · exact hk a rest hreads t hthere

/-- A script behind a check that fails asks for nothing. -/
theorem fits_guard {c : Prop} [Decidable c] {fault : Fault} {k : β → Script α}
    {s : Script α} (h : s.Fits bs) :
    (if c then refuse fault >>= k else s).Fits bs := by
  split
  · exact fits_refuse fault bs
  · exact h

/-- Asking how many bytes are left takes none. -/
theorem fits_remaining_bind {k : Nat → Script α} (h : (k bs.length).Fits bs) :
    (remaining done >>= k).Fits bs := h

/-- A script whose steps all fit never runs past the end. -/
theorem Fits.not_overrun {s : Script α} (h : s.Fits bs) (wanted left : Nat) :
    s.run bs ≠ .error (.overrun wanted left) := by
  induction s generalizing bs with
  | done value => exact fun heq => (by cases heq)
  | refuse fault => exact fun heq => (by cases heq)
  | take count next ih =>
      cases hsplit : Reader.split? count bs with
      | none =>
          rw [Fits, takes_take_of_none hsplit] at h
          have hwithin := (h _ (List.mem_singleton_self _)).within
          rw [split?_of_le hwithin] at hsplit
          cases hsplit
      | some split =>
          rw [Fits, takes_take_of_some hsplit] at h
          rw [run_take_of_some hsplit]
          exact ih split.1 fun t ht => h t (List.mem_cons_of_mem _ ht)
  | remaining next ih =>
      rw [run_remaining]
      exact ih bs.length h

theorem Fits.sum_le {s : Script α} (h : s.Fits bs) :
    ((s.takes bs).map Take.wanted).sum ≤ bs.length :=
  Take.sum_wanted_le (s.pairwise_takes bs) h fun _ ht => left_le_of_mem_takes ht

/-! ## Numbers and lists -/

def bytes (count : Nat) : Script (List UInt8) := take count done

def number (width : Nat) : Script Nat := do return Bytes.ofBytes (← bytes width)

def need (count : Nat) : Script Unit :=
  remaining fun left => if left < count then refuse (.tooShort count left)
    else done ()

def items (item : Script α) : Nat → Script (List α)
  | 0 => return []
  | count + 1 => do
    let a ← item
    let as ← items item count
    return a :: as

def counted (size : Nat) (item : Script α) : Script (List α) := do
  need 2
  let count ← number 2
  need (count * size)
  items item count

theorem run_bytes (count : Nat) : (bytes count).run = Reader.bytes count :=
  bind_pure (Reader.bytes count)

theorem run_number (width : Nat) :
    (number width).run = Reader.number width := by
  rw [number, run_bind, run_bytes]
  rfl

theorem run_need (count : Nat) : (need count).run = Reader.need count := by
  funext bs
  rw [need, run_remaining, run_ite, Reader.need]
  split <;> rfl

theorem run_items {item : Script α} {r : Reader α} (h : item.run = r)
    (count : Nat) : (items item count).run = Reader.items r count := by
  induction count with
  | zero => rfl
  | succ count ih =>
      simp only [items, items_succ, run_bind, h, ih]
      rfl

theorem run_counted {item : Script α} {r : Reader α} (h : item.run = r)
    (size : Nat) : (counted size item).run = Reader.counted size r := by
  simp only [counted, Reader.counted, run_bind, run_need,
    run_number, run_items h]

theorem fits_bytes {count : Nat} (hwidth : count ∈ [1, 2, 8, 16])
    (hle : count ≤ bs.length) : (bytes count).Fits bs := by
  intro t ht
  rw [bytes, takes_take_of_some (split?_of_le hle)] at ht
  cases List.mem_singleton.1 ht
  exact ⟨hwidth, hle⟩

theorem fits_number {width : Nat} (hwidth : width ∈ [1, 2, 8, 16])
    (hle : width ≤ bs.length) : (number width).Fits bs :=
  fits_bind (fits_bytes hwidth hle) fun _ _ _ => fits_pure _ _

theorem fits_need (count : Nat) (bs : List UInt8) : (need count).Fits bs := by
  intro t ht
  rw [need, takes] at ht
  split at ht <;> cases ht

/-- A script that asks for bytes of one total size and leaves those behind
them. -/
structure Spans (s : Script α) (size : Nat) : Prop where
  fits : ∀ bs, size ≤ bs.length → s.Fits bs
  length_eq : ∀ bs a rest, Reads s.run bs a rest →
    bs.length = size + rest.length

theorem spans_pure (value : α) : (pure value : Script α).Spans 0 where
  fits bs _ := fits_pure value bs
  length_eq bs a rest h := by
    obtain ⟨-, rfl⟩ := reads_pure_iff.1 h
    exact (Nat.zero_add _).symm

theorem spans_refuse (fault : Fault) (size : Nat) :
    (refuse fault : Script α).Spans size where
  fits bs _ := fits_refuse fault bs
  length_eq _ _ _ h := absurd h not_reads_refuse

theorem spans_bytes (count : Nat) (hwidth : count ∈ [1, 2, 8, 16]) :
    (bytes count).Spans count where
  fits _ hle := fits_bytes hwidth hle
  length_eq bs a rest h := by
    rw [run_bytes, reads_bytes_iff] at h
    rw [h.1, List.length_append, h.2]

theorem Spans.bind {s : Script α} {k : α → Script β} {first second : Nat}
    (hs : s.Spans first) (hk : ∀ a, (k a).Spans second) :
    (s >>= k).Spans (first + second) where
  fits bs hle := by
    refine fits_bind (hs.fits bs (by omega)) fun a rest hreads =>
      (hk a).fits rest ?_
    have hlength := hs.length_eq bs a rest hreads
    omega
  length_eq bs b rest h := by
    rw [run_bind, reads_bind_iff] at h
    obtain ⟨a, mid, hfirst, hsecond⟩ := h
    have hmid := hs.length_eq bs a mid hfirst
    have hrest := (hk a).length_eq mid b rest hsecond
    omega

theorem spans_number (width : Nat) (hwidth : width ∈ [1, 2, 8, 16]) :
    (number width).Spans width :=
  (spans_bytes width hwidth).bind fun _ => spans_pure _

theorem spans_demand (answer : Except Fault α) {k : α → Script β} {size : Nat}
    (hk : ∀ a, (k a).Spans size) : (demand answer k).Spans size := by
  cases answer with
  | error fault => exact spans_refuse fault size
  | ok a => exact hk a

/-- Items of one size each take the product of their count and that size. -/
theorem Spans.items {item : Script α} {size : Nat} (h : item.Spans size)
    (count : Nat) : (items item count).Spans (count * size) := by
  induction count with
  | zero =>
      rw [Nat.zero_mul]
      exact spans_pure []
  | succ count ih =>
      have hsize : (count + 1) * size = size + (count * size + 0) := by
        rw [Nat.succ_mul, Nat.add_comm]
        rfl
      rw [hsize]
      exact h.bind fun _ => ih.bind fun _ => spans_pure _

/-- What is asked for behind a check is there if it is what was checked. -/
theorem fits_need_bind {k : Unit → Script α} {size : Nat} (bs : List UInt8)
    (hk : size ≤ bs.length → (k ()).Fits bs) : (need size >>= k).Fits bs := by
  refine fits_bind (fits_need size bs) fun u rest hreads => ?_
  rw [run_need, reads_need_iff] at hreads
  obtain ⟨hle, rfl⟩ := hreads
  exact hk hle

/-- A list behind its count is read within the bytes that there are,
whatever the count says. -/
theorem Spans.fits_counted {item : Script α} {size : Nat} (h : item.Spans size)
    (bs : List UInt8) : (counted size item).Fits bs := by
  refine fits_need_bind bs fun hcount => ?_
  refine fits_bind (fits_number (by decide) hcount) fun count rest _ => ?_
  exact fits_need_bind rest fun hitems => (h.items count).fits rest hitems

end Script

/-! ## The script of frames -/

open Script (bytes number need counted)

/-- What stands in a header behind the kind of message. -/
def Header.tailScript (version : UInt8) (kind : Kind) : Script Header := do
  let sender := NodeId.ofBytes (← bytes 8)
  let payloadLength := UInt16.ofNat (← number 2)
  return ⟨version, kind, sender, payloadLength⟩

def Header.script : Script Header := do
  need size
  let version := UInt8.ofNat (← number 1)
  if version ≠ currentVersion then
    Script.refuse (.invalidWire (.unsupportedVersion version))
  Script.demand (Kind.ofByte (UInt8.ofNat (← number 1))) (tailScript version)

def versionScript : Script Version := do return ⟨UInt64.ofNat (← number 8)⟩

def prefixScript : Script Prefix := do
  let bits ← number 16
  let length ← number 1
  Script.demand (Prefix.make ⟨BitVec.ofNat 128 bits⟩ length) fun p => return p

def prefixEntryScript : Script PrefixEntry := do
  let net ← prefixScript
  let flags : Flags := ⟨UInt8.ofNat (← number 1)⟩
  let owner := NodeId.ofBytes (← bytes 8)
  return ⟨net, flags, owner⟩

def contextIdScript : Script ContextId := do return ⟨UInt8.ofNat (← number 1)⟩

def contextEntryScript : Script ContextEntry := do
  let id ← contextIdScript
  let net ← prefixScript
  let compress := (← number 1) != 0
  return ⟨id, net, compress⟩

def deltaScript : Script Delta := do
  need 16
  let base ← versionScript
  let target ← versionScript
  if target ≤ base then
    Script.refuse (.invalidWire (.notAdvancing base target))
  let prefixesAdded ← counted prefixEntrySize prefixEntryScript
  let prefixesRemoved ← counted prefixSize prefixScript
  let contextsAdded ← counted contextEntrySize contextEntryScript
  let contextsRemoved ← counted 1 contextIdScript
  return ⟨base, target, prefixesAdded, prefixesRemoved, contextsAdded,
    contextsRemoved⟩

def snapshotRequestScript : Script Version := do
  need 8
  versionScript

def snapshotScript : Script NetworkData := do
  need 8
  let version ← versionScript
  let prefixes ← counted prefixEntrySize prefixEntryScript
  let contexts ← counted contextEntrySize contextEntryScript
  return NetworkData.ofParts version prefixes contexts

def Message.script : Kind → Script Message
  | .delta => do return .delta (← deltaScript)
  | .snapshotRequest => do return .snapshotRequest (← snapshotRequestScript)
  | .snapshot => do return .snapshot (← snapshotScript)

def Frame.script : Script Frame := do
  let header ← Header.script
  let remaining ← Script.remaining Script.done
  if remaining ≠ header.payloadLength.toNat then
    Script.refuse
      (.invalidWire (.lengthMismatch header.payloadLength.toNat remaining))
  let message ← Message.script header.kind
  let trailing ← Script.remaining Script.done
  if trailing ≠ 0 then
    Script.refuse (.invalidWire (.trailing trailing))
  return ⟨header, message⟩

/-! ## It is what the reader does -/

theorem Header.run_script : Header.script.run = Header.reader := by
  simp only [script, reader, Script.run_bind, Script.run_need,
    Script.run_number, Script.run_ite]
  refine congrArg (Reader.need size >>= ·) (funext fun _ => ?_)
  refine congrArg (Reader.number 1 >>= ·) (funext fun version => ?_)
  split
  · rfl
  · refine congrArg (Reader.number 1 >>= ·) (funext fun kind => ?_)
    cases Kind.ofByte (UInt8.ofNat kind) with
    | error fault => rfl
    | ok kind =>
        simp only [Script.demand, tailScript, Script.run_bind, Script.run_bytes,
          Script.run_number]
        rfl

theorem run_versionScript : versionScript.run = versionReader := by
  rw [versionScript, Script.run_bind, Script.run_number]
  rfl

theorem run_prefixScript : prefixScript.run = prefixReader := by
  rw [prefixScript, prefixReader, Script.run_bind, Script.run_number]
  refine congrArg (Reader.number 16 >>= ·) (funext fun bits => ?_)
  rw [Script.run_bind, Script.run_number]
  refine congrArg (Reader.number 1 >>= ·) (funext fun length => ?_)
  cases Prefix.make ⟨BitVec.ofNat 128 bits⟩ length with
  | error fault => rfl
  | ok p => rfl

theorem run_prefixEntryScript : prefixEntryScript.run = prefixEntryReader := by
  simp only [prefixEntryScript, Script.run_bind, Script.run_number,
    Script.run_bytes, run_prefixScript]
  rfl

theorem run_contextIdScript : contextIdScript.run = contextIdReader := by
  rw [contextIdScript, Script.run_bind, Script.run_number]
  rfl

theorem run_contextEntryScript :
    contextEntryScript.run = contextEntryReader := by
  simp only [contextEntryScript, Script.run_bind, Script.run_number,
    run_contextIdScript, run_prefixScript]
  rfl

theorem run_deltaScript : deltaScript.run = deltaReader := by
  simp only [deltaScript, Script.run_bind, Script.run_need, Script.run_ite,
    run_versionScript, Script.run_counted run_prefixEntryScript,
    Script.run_counted run_prefixScript, Script.run_counted
    run_contextEntryScript, Script.run_counted run_contextIdScript]
  rfl

theorem run_snapshotRequestScript :
    snapshotRequestScript.run = snapshotRequestReader := by
  simp only [snapshotRequestScript, Script.run_bind, Script.run_need,
    run_versionScript]
  rfl

theorem run_snapshotScript : snapshotScript.run = snapshotReader := by
  simp only [snapshotScript, Script.run_bind, Script.run_need,
    run_versionScript, Script.run_counted run_prefixEntryScript,
    Script.run_counted run_contextEntryScript]
  rfl

theorem Message.run_script (kind : Kind) :
    (Message.script kind).run = Message.reader kind := by
  cases kind with
  | delta =>
      rw [script, Script.run_bind, run_deltaScript]
      rfl
  | snapshotRequest =>
      rw [script, Script.run_bind, run_snapshotRequestScript]
      rfl
  | snapshot =>
      rw [script, Script.run_bind, run_snapshotScript]
      rfl

theorem Frame.run_script : Frame.script.run = Frame.reader := by
  simp only [script, reader, Script.run_bind, Script.run_ite, Header.run_script,
    Message.run_script]
  rfl

/-! ## It stays within the bytes -/

theorem spans_versionScript : versionScript.Spans 8 :=
  (Script.spans_number 8 (by decide)).bind fun _ => Script.spans_pure _

theorem spans_prefixScript : prefixScript.Spans prefixSize :=
  (Script.spans_number 16 (by decide)).bind fun _ =>
    (Script.spans_number 1 (by decide)).bind fun _ =>
      Script.spans_demand _ fun _ => Script.spans_pure _

theorem spans_prefixEntryScript : prefixEntryScript.Spans prefixEntrySize :=
  spans_prefixScript.bind fun _ =>
    (Script.spans_number 1 (by decide)).bind fun _ =>
    (Script.spans_bytes 8 (by decide)).bind fun _ => Script.spans_pure _

theorem spans_contextIdScript : contextIdScript.Spans 1 :=
  (Script.spans_number 1 (by decide)).bind fun _ => Script.spans_pure _

theorem spans_contextEntryScript : contextEntryScript.Spans contextEntrySize :=
  spans_contextIdScript.bind fun _ => spans_prefixScript.bind fun _ =>
    (Script.spans_number 1 (by decide)).bind fun _ => Script.spans_pure _

theorem Header.spans_tailScript (version : UInt8) (kind : Kind) :
    (tailScript version kind).Spans 10 :=
  (Script.spans_bytes 8 (by decide)).bind fun _ =>
    (Script.spans_number 2 (by decide)).bind fun _ =>
    Script.spans_pure _

theorem Header.fits_script (bs : List UInt8) : Header.script.Fits bs := by
  refine Script.fits_need_bind bs fun hsize => ?_
  rw [Header.size] at hsize
  refine Script.fits_bind (Script.fits_number (by decide) (by omega))
    fun version rest hreads => ?_
  have hrest := (Script.spans_number 1 (by decide)).length_eq _ _ _ hreads
  refine Script.fits_guard ?_
  refine Script.fits_bind (Script.fits_number (by decide) (by omega))
    fun kind rest' hreads' => ?_
  have hrest' := (Script.spans_number 1 (by decide)).length_eq _ _ _ hreads'
  exact (Script.spans_demand _ (spans_tailScript _)).fits rest' (by omega)

theorem fits_deltaScript (bs : List UInt8) : deltaScript.Fits bs := by
  refine Script.fits_need_bind bs fun hversions => ?_
  refine Script.fits_bind (spans_versionScript.fits bs (by omega))
    fun base rest hreads => ?_
  have hrest := spans_versionScript.length_eq _ _ _ hreads
  refine Script.fits_bind (spans_versionScript.fits rest (by omega))
    fun target rest _ => ?_
  refine Script.fits_guard ?_
  refine Script.fits_bind (spans_prefixEntryScript.fits_counted rest)
    fun _ rest _ => ?_
  refine Script.fits_bind (spans_prefixScript.fits_counted rest)
    fun _ rest _ => ?_
  refine Script.fits_bind (spans_contextEntryScript.fits_counted rest)
    fun _ rest _ => ?_
  refine Script.fits_bind (spans_contextIdScript.fits_counted rest)
    fun _ rest _ => ?_
  exact Script.fits_pure _ rest

theorem fits_snapshotRequestScript (bs : List UInt8) :
    snapshotRequestScript.Fits bs :=
  Script.fits_need_bind bs fun hversion => spans_versionScript.fits bs hversion

theorem fits_snapshotScript (bs : List UInt8) : snapshotScript.Fits bs := by
  refine Script.fits_need_bind bs fun hversion => ?_
  refine Script.fits_bind (spans_versionScript.fits bs hversion)
    fun _ rest _ => ?_
  refine Script.fits_bind (spans_prefixEntryScript.fits_counted rest)
    fun _ rest _ => ?_
  refine Script.fits_bind (spans_contextEntryScript.fits_counted rest)
    fun _ rest _ => ?_
  exact Script.fits_pure _ rest

theorem Message.fits_script (kind : Kind) (bs : List UInt8) :
    (Message.script kind).Fits bs := by
  cases kind with
  | delta =>
      exact Script.fits_bind (fits_deltaScript bs) fun _ rest _ =>
        Script.fits_pure _ rest
  | snapshotRequest =>
      exact Script.fits_bind (fits_snapshotRequestScript bs) fun _ rest _ =>
        Script.fits_pure _ rest
  | snapshot =>
      exact Script.fits_bind (fits_snapshotScript bs) fun _ rest _ =>
        Script.fits_pure _ rest

namespace Frame

theorem fits_script (bs : List UInt8) : Frame.script.Fits bs := by
  refine Script.fits_bind (Header.fits_script bs) fun header rest _ => ?_
  refine Script.fits_remaining_bind (Script.fits_guard ?_)
  refine Script.fits_bind (Message.fits_script header.kind rest)
    fun message rest _ => ?_
  exact Script.fits_remaining_bind (Script.fits_guard (Script.fits_pure _ rest))

/-- What reading a frame asks a byte string for. -/
structure StaysWithin (bs : List UInt8) : Prop where
  /-- The script is what the reader does. -/
  followed : script.run = reader
  /-- Every number that is taken has one, two, eight or sixteen
  bytes, and they are left. -/
  fits : ∀ t ∈ script.takes bs, t.Fits
  /-- Each take starts where the one before it ends, or behind that: no
  byte is taken twice. -/
  once : (script.takes bs).Pairwise Take.Before
  /-- All takes together ask for no more bytes than there are. -/
  sum_le : ((script.takes bs).map Take.wanted).sum ≤ bs.length
  /-- The reader is never stopped for taking more than there is. -/
  not_overrun : ∀ wanted left, reader bs ≠ .error (.overrun wanted left)
  /-- It ends with a frame, or with a fault for which the bytes are refused. -/
  ends : (∃ f rest, reader bs = .ok (f, rest) ∧ parse bs = .ok f) ∨
    ∃ fault, reader bs = .error (.refused fault) ∧ parse bs = .error fault

theorem not_overrun_reader (bs : List UInt8) (wanted left : Nat) :
    reader bs ≠ .error (.overrun wanted left) := by
  rw [← run_script]
  exact (fits_script bs).not_overrun wanted left

theorem parse_ends (bs : List UInt8) :
    (∃ f rest, reader bs = .ok (f, rest) ∧ parse bs = .ok f) ∨
      ∃ fault, reader bs = .error (.refused fault) ∧
      parse bs = .error fault := by
  rw [parse, Reader.read]
  cases hreader : reader bs with
  | ok taken => exact Or.inl ⟨taken.1, taken.2, rfl, rfl⟩
  | error stop =>
      cases stop with
      | refused fault => exact Or.inr ⟨fault, rfl, rfl⟩
      | overrun wanted left =>
          exact absurd hreader (not_overrun_reader bs wanted left)

/-- Whatever bytes come in, cut off anywhere and with any counts, reading them
as a frame stays within them and ends after taking each of them once at most. -/
theorem staysWithin (bs : List UInt8) : StaysWithin bs where
  followed := run_script
  fits := fits_script bs
  once := script.pairwise_takes bs
  sum_le := (fits_script bs).sum_le
  not_overrun := not_overrun_reader bs
  ends := parse_ends bs

/-- A delta that counts 200 entries and ends there: behind the
count nothing is taken. -/
example :
    script.takes ([1, 1] ++ Bytes.toBytes 8 7 ++ [18, 0] ++ Bytes.toBytes 8 0 ++
      Bytes.toBytes 8 1 ++ [200, 0]) =
      [⟨1, 30⟩, ⟨1, 29⟩, ⟨8, 28⟩, ⟨2, 20⟩, ⟨8, 18⟩, ⟨8, 10⟩, ⟨2, 2⟩] := by
  decide

end Frame

end OnMesh.Wire
