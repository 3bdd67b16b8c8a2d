import OnMesh.Proofs.Node.Receipts

/-!
# Frames that peers can read

Whatever a node is handed, every frame that it hands out bears its name and is
read back as it was written, if it has bytes at all.  Readers refuse deltas that
do not advance.  Those that come in are never taken over, so that only the
authority could make one, with an edit that finds no version to count up to.
Fewer than `2 ^ 64` edits never get there.
-/

namespace OnMesh

open Wire (Frame Message)

/-- A frame that tells its sender, and that is read back with its message. -/
structure Wire.Frame.Legible (f : Frame) (id : NodeId) : Prop where
  sender : f.sender = id
  advances : ∀ d, f.message = .delta d → d.base < d.target
  read_back : ∀ bytes, f.serialize = .ok bytes →
    ∃ g, Frame.parse bytes = .ok g ∧ g.sender = id ∧ g.message = f.message

theorem Wire.Frame.legible_make (id : NodeId) {message : Message}
    (h : message.Advances) : (Frame.make id message).Legible id where
  sender := rfl
  advances := by
    rintro d rfl
    exact h
  read_back _ hbytes := ⟨_, Frame.parse_serialize rfl h hbytes, rfl, rfl⟩

namespace Node

variable {n : Node}

/-- The frames that are popped in the course of some calls, first one first. -/
def handedOut : Node → List Call → List Outgoing
  | _, [] => []
  | n, c :: calls => (n.emitted c).toList ++ (n.after c).handedOut calls

/-- The call is an edit that finds no version to count up to. -/
def Exhausts (n : Node) (c : Call) : Prop :=
  c.isEdit = true ∧ (n.after c).version < n.version

instance (c : Call) : Decidable (n.Exhausts c) :=
  inferInstanceAs (Decidable (_ ∧ _))

/-- No edit exhausts the versions. -/
def CountsUp : Node → List Call → Prop
  | _, [] => True
  | n, c :: calls => ¬ n.Exhausts c ∧ (n.after c).CountsUp calls

instance decidableCountsUp : (n : Node) → (calls : List Call) →
    Decidable (n.CountsUp calls)
  | _, [] => .isTrue trivial
  | n, c :: calls =>
    have := decidableCountsUp (n.after c) calls
    inferInstanceAs (Decidable (_ ∧ _))

/-! ## Versions that are counted up -/

theorem used_of_isEdit (n : Node) {c : Call} (hc : c.isEdit = true) :
    ∃ p, Used n p (n.after c) := by
  cases c with
  | addPrefix net flags => exact ⟨_, used_addPrefix n net flags⟩
  | removePrefix net => exact ⟨_, used_removePrefix n net⟩
  | _ => cases hc

theorem version_followNotices (n : Node) :
    n.followNotices.version = n.version := by
  rw [version, (followed_fields n).1]
  rfl

theorem version_advanced {p : Press} {edited : NetworkData}
    (h : p.replica = n.replica.advance edited) :
    ({ n with replica := p.replica, pool := p.pool }).followNotices.version =
      n.version.next := by
  rw [version_followNotices, version, h]
  rfl

/-- An edit leaves the version, or goes on to the next one. -/
theorem Used.version_eq {n' : Node} {p : Press} (h : Used n p n') :
    n'.version = n.version ∨ n.role.canPublish = true ∧
    n'.version = n.version.next := by
  cases h with
  | refused _ => exact Or.inl rfl
  | unchanged _ => exact Or.inl (version_followNotices _)
  | advanced hrole _ hreplica => exact Or.inr ⟨hrole, version_advanced hreplica⟩

/-- An edit that does not take the version back advances. -/
theorem Advancing.used_of_le {n' : Node} {p : Press} (h : n.Advancing)
    (hused : Used n p n') (hle : n.version ≤ n'.version) : n'.Advancing := by
  cases hused with
  | refused _ => exact h.of_eq rfl rfl
  | unchanged _ =>
      exact (h.of_eq (m := { n with pool := p.pool }) rfl rfl).followNotices
  | advanced hrole hauth hreplica henq hflooding =>
      have hnext : n.version ≤ n.version.next :=
        le_of_le_of_eq hle (version_advanced hreplica)
      exact h.used (Used.advanced hrole hauth hreplica henq hflooding) fun _ =>
        lt_of_le_of_ne hnext n.version.next_ne.symm

/-- The deltas of a node advance as long as no edit exhausts the versions. -/
theorem Advancing.after_of_not_exhausts (h : n.Advancing) {c : Call}
    (hc : ¬ n.Exhausts c) : (n.after c).Advancing := by
  cases hedit : c.isEdit with
  | false =>
      exact h.after fun hisEdit => (by rw [hedit] at hisEdit; cases hisEdit)
  | true =>
      obtain ⟨p, hused⟩ := n.used_of_isEdit hedit
      exact h.used_of_le hused (not_lt.1 fun hlt => hc ⟨hedit, hlt⟩)

/-- The version of an authority is at most the number of its edits, so that it
does not get to the last one with fewer edits than there are versions. -/
theorem countsUp_of_few_edits {k : Nat} (hformed : n.Formed)
    (hversion : n.role.canPublish = true → n.version.number.toNat ≤ k)
    {calls : List Call}
    (hfew : k + (calls.filter Call.isEdit).length < 2 ^ 64) :
    n.CountsUp calls := by
  induction calls generalizing n k with
  | nil => trivial
  | cons c calls ih =>
      have halike := alike_after n c
      cases hedit : c.isEdit with
      | true =>
          rw [List.filter_cons_of_pos hedit, List.length_cons] at hfew
          obtain ⟨p, hused⟩ := n.used_of_isEdit hedit
          have hcounted : (n.after c).version = n.version ∨
              n.role.canPublish = true ∧
              (n.after c).version.number.toNat =
                n.version.number.toNat + 1 := by
            refine hused.version_eq.imp_right fun ⟨hrole, hnext⟩ => ⟨hrole, ?_⟩
            have hle := hversion hrole
            rw [hnext, Version.number_next]
            omega
          refine ⟨fun hexhausts => ?_,
            ih (k := k + 1) (hformed.of_alike halike) ?_ (by omega)⟩
          · have hlt := Version.lt_iff.1 hexhausts.2
            rcases hcounted with hsame | ⟨-, hnext⟩
            · rw [hsame] at hlt
              omega
            · omega
          · intro hrole
            have hle := hversion (halike.role ▸ hrole)
            rcases hcounted with hsame | ⟨-, hnext⟩
            · rw [hsame]
              omega
            · omega
      | false =>
          rw [List.filter_cons_of_neg (by simp [hedit])] at hfew
          refine ⟨fun hexhausts => ?_,
            ih (hformed.of_alike halike) (fun hrole => ?_) hfew⟩
          · rw [Exhausts, hedit] at hexhausts
            cases hexhausts.1
          · have hrole : n.role.canPublish = true := halike.role ▸ hrole
            by_cases hdetach : c = .detach
            · rw [hdetach]
              exact Nat.zero_le k
            · have hdata := data_after_of_authority
                (hformed.authority.trans hrole) hedit hdetach
              have hsame : (n.after c).version = n.version :=
                congrArg NetworkData.version hdata
              rw [hsame]
              exact hversion hrole

/-! ## Every frame that is handed out -/

/-- As long as versions count up, every frame that is handed out can be read by
a peer. -/
theorem legible_handedOut_of_signed (hadvancing : n.Advancing)
    (hsigned : n.Signed) {calls : List Call} (hcounts : n.CountsUp calls) :
    ∀ o ∈ n.handedOut calls, o.frame.Legible n.id := by
  induction calls generalizing n with
  | nil => exact fun o ho => (by cases ho)
  | cons c calls ih =>
      intro o ho
      rcases List.mem_append.1 ho with hnow | hlater
      · cases c with
        | pop =>
            have hwaits : o ∈ n.outgoing :=
              (pop_sublist n).2 o (Option.mem_toList.1 hnow)
            obtain ⟨message, hmade⟩ := hsigned o hwaits
            have hadvances := hadvancing.outgoing o hwaits
            rw [hmade] at hadvances ⊢
            exact Frame.legible_make n.id hadvances
        | _ => cases hnow
      · have hid : (n.after c).id = n.id := (alike_after n c).id
        rw [← hid]
        exact ih (hadvancing.after_of_not_exhausts hcounts.1)
          (hsigned.after c) hcounts.2 o hlater

theorem countsUp_make (id : NodeId) (role : Role) (settings : NodeSettings)
    {calls : List Call} (hfew : (calls.filter Call.isEdit).length < 2 ^ 64) :
    (make id role settings).CountsUp calls :=
  countsUp_of_few_edits (k := 0) (formed_make id role settings)
    (fun _ => Nat.le_refl 0)
    (by rwa [Nat.zero_add])

/-- Whatever is asked of a node and whatever frames it is handed, its peers can
read what it hands out: the frames bear its name, their deltas advance, and they
are read back as they were written. -/
theorem legible_handedOut (id : NodeId) (role : Role) (settings : NodeSettings)
    {calls : List Call} (hcounts : (make id role settings).CountsUp calls) :
    ∀ o ∈ (make id role settings).handedOut calls, o.frame.Legible id :=
  legible_handedOut_of_signed (advancing_make id role settings)
    (signed_make id role settings)
    hcounts

/-- A relay is handed a delta that stands still, one that names a prefix twice,
and one that leads back. -/
def pestered : List Call :=
  let entry : PrefixEntry := ⟨default, Flags.none, ⟨1⟩⟩
  [.start, .addNeighbour ⟨1⟩, .addNeighbour ⟨3⟩, .setAdmissible ⟨1⟩ true,
    .setAdmissible ⟨3⟩ true, .queueFrame
    (Frame.make ⟨1⟩ (.delta ⟨⟨5⟩, ⟨5⟩, [], [], [], []⟩)), .queueFrame
    (Frame.make ⟨1⟩ (.delta ⟨⟨0⟩, ⟨2⟩, [entry, entry], [], [], []⟩)),
    .queueFrame (Frame.make ⟨3⟩ (.delta ⟨⟨2⟩, ⟨1⟩, [], [], [], []⟩)),
    .addPrefix default Flags.none, .tick 1, .pop, .pop, .pop, .pop, .pop]

theorem legible_handedOut_pestered :
    let n := make ⟨2⟩ .relay NodeSettings.usual
    n.CountsUp pestered ∧ (n.handedOut pestered).length = 5 ∧
      ∀ o ∈ n.handedOut pestered, o.frame.Legible ⟨2⟩ := by
  intro n
  have hcounts : n.CountsUp pestered := by decide +kernel
  exact ⟨hcounts, by decide +kernel,
    legible_handedOut ⟨2⟩ .relay NodeSettings.usual hcounts⟩

end Node

end OnMesh
