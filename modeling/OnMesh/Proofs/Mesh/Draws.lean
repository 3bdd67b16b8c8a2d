import OnMesh.Proofs.Mesh.Runs
import Mathlib.Data.Finset.Card

/-!
# Hardware addresses that are drawn

A new node gets the first number of the stream that is not zero and is not taken
yet.  As long as there are fresh numbers ahead, one is found before the search
is given up, and all others that were ahead still are.  A stream that yields
enough different numbers therefore supplies a mesh of any size.
-/

namespace OnMesh

def KeyStream.numbers : Nat → KeyStream → List UInt64
  | 0, _ => []
  | count + 1, s => s.next.1 :: numbers count s.next.2

theorem KeyStream.length_numbers (count : Nat) (s : KeyStream) :
    (s.numbers count).length = count := by
  induction count generalizing s with
  | zero => rfl
  | succ count ih => exact congrArg Nat.succ (ih s.next.2)

namespace Mesh

variable {m m' : Mesh} {s : Station} {needed : Nat}

/-- The stream yields so many different numbers that are not zero, before a
search in it would be given up. -/
def Yields (stream : KeyStream) (needed : Nat) : Prop :=
  ∃ count ≤ mostDraws, needed ≤ ((stream.numbers count).toFinset.erase 0).card

/-- A stream whose first numbers are all different and not zero yields as
many. -/
theorem yields_of_nodup {stream : KeyStream} (hcount : needed ≤ mostDraws)
    (hdistinct : (stream.numbers needed).Nodup)
    (hzero : 0 ∉ stream.numbers needed) : Yields stream needed := by
  refine ⟨needed, hcount, Nat.le_of_eq ?_⟩
  rw [Finset.erase_eq_of_notMem (by rwa [List.mem_toFinset]),
    List.toFinset_card_of_nodup hdistinct, KeyStream.length_numbers]

/-- So many fresh hardware addresses are ahead in the stream of the mesh. -/
def Supplied (m : Mesh) (needed : Nat) : Prop :=
  ∃ count ≤ mostDraws, ∃ ahead : Finset UInt64, needed ≤ ahead.card ∧
    ∀ bits ∈ ahead, bits ∈ m.stream.numbers count ∧ m.isFresh ⟨bits⟩ = true

/-- An empty mesh is supplied with what the stream of its seed yields. -/
theorem supplied_make {settings : Settings}
    (h : Yields (KeyStream.ofSeed settings.seed) needed) :
    (make settings).Supplied needed := by
  obtain ⟨count, hcount, hneeded⟩ := h
  refine ⟨count, hcount, _, hneeded, fun bits hbits => ?_⟩
  obtain ⟨hzero, hmem⟩ := Finset.mem_erase.1 hbits
  refine ⟨List.mem_toFinset.1 hmem,
    isFresh_iff.2 ⟨fun h => hzero (congrArg NodeId.bits h), rfl⟩⟩

/-- If a fresh number is ahead, the first one is drawn, and the
others are still ahead. -/
theorem drawFresh?_of_mem {count draws : Nat} {stream : KeyStream}
    (hcount : count ≤ draws)
    (h : ∃ bits ∈ stream.numbers count, m.isFresh ⟨bits⟩ = true) :
    ∃ id rest left, m.drawFresh? draws stream = some (id, rest) ∧ left ≤ count ∧
      ∀ bits ∈ stream.numbers count, m.isFresh ⟨bits⟩ = true →
        ⟨bits⟩ = id ∨ bits ∈ rest.numbers left := by
  induction count generalizing draws stream with
  | zero =>
      obtain ⟨bits, hmem, -⟩ := h
      cases hmem
  | succ count ih =>
      obtain ⟨draws, rfl⟩ : ∃ d, draws = d + 1 := ⟨draws - 1, by omega⟩
      cases hfirst : m.isFresh ⟨stream.next.1⟩ with
      | true =>
          refine ⟨⟨stream.next.1⟩, stream.next.2, count, if_pos hfirst,
            Nat.le_succ _, ?_⟩
          intro bits hmem _
          rcases List.mem_cons.1 hmem with rfl | hmem
          · exact Or.inl rfl
          · exact Or.inr hmem
      | false =>
          have hlater : ∀ bits ∈ stream.numbers (count + 1),
              m.isFresh ⟨bits⟩ = true →
              bits ∈ stream.next.2.numbers count := by
            intro bits hmem hfresh
            rcases List.mem_cons.1 hmem with rfl | hmem
            · rw [hfirst] at hfresh
              cases hfresh
            · exact hmem
          obtain ⟨bits, hmem, hfresh⟩ := h
          obtain ⟨id, rest, left, hdraw, hleft, hothers⟩ :=
            ih (Nat.le_of_succ_le_succ hcount)
              ⟨bits, hlater bits hmem hfresh, hfresh⟩
          refine ⟨id, rest, left, ?_, by omega, fun bits hmem hfresh =>
            hothers bits (hlater bits hmem hfresh) hfresh⟩
          rw [← hdraw, drawFresh?]
          exact if_neg (Bool.eq_false_iff.1 hfirst)

/-- A mesh is supplied as well as another one with its stream and its table of
stations. -/
theorem Supplied.of_stations (h : m.Supplied needed)
    (hstream : m'.stream = m.stream) (hstations : m'.stations = m.stations) :
    m'.Supplied needed := by
  obtain ⟨count, hcount, ahead, hneeded, hahead⟩ := h
  refine ⟨count, hcount, ahead, hneeded, fun bits hbits => ?_⟩
  rw [hstream, isFresh, locate?, hstations]
  exact hahead bits hbits

/-- A node can be added to a mesh that is supplied with a
hardware address for it. -/
theorem Supplied.addNode (h : m.Supplied (needed + 1))
    (hnone : m.nodes.get? s = none) (hvalid : m.settings.node.validate = .ok ())
    (role : Role) :
    ∃ id stream, m.isFresh id = true ∧
      m.addNode s role = (.ok id, m.withNode s id role stream) ∧
      (m.withNode s id role stream).Supplied needed := by
  obtain ⟨count, hcount, ahead, hneeded, hahead⟩ := h
  obtain ⟨bits, hbits⟩ :=
    Finset.card_pos.1 (Nat.lt_of_lt_of_le needed.succ_pos hneeded)
  obtain ⟨id, rest, left, hdraw, hleft, hothers⟩ :=
    drawFresh?_of_mem hcount
      ⟨bits, (hahead bits hbits).1, (hahead bits hbits).2⟩
  refine ⟨id, rest, isFresh_of_drawFresh? hdraw, ?_, left, hleft.trans hcount,
    ahead.erase id.bits, ?_, fun other hother => ?_⟩
  · rw [Mesh.addNode, hnone, hvalid]
    simp only [hdraw]
    rfl
  · have hcard := Finset.pred_card_le_card_erase (s := ahead) (a := id.bits)
    omega
  · obtain ⟨hne, hmem⟩ := Finset.mem_erase.1 hother
    obtain ⟨hnumber, hfresh⟩ := hahead other hmem
    have hid : (⟨other⟩ : NodeId) ≠ id := fun h => hne (congrArg NodeId.bits h)
    obtain ⟨hzero, hnone⟩ := isFresh_iff.1 hfresh
    refine ⟨(hothers other hnumber hfresh).resolve_left hid,
      isFresh_iff.2 ⟨hzero, ?_⟩⟩
    rw [locate?, withNode, Table.get?_insert, if_neg hid]
    exact hnone

end Mesh

end OnMesh
