import OnMesh.Certification
import OnMesh.Proofs.Mesh.Courier

/-!
# The steps of a certification

A certification is a sequence of calls on a mesh, with checks in between.
`Leads` says that a part of it goes through: no call is refused, and the mesh
and the verdict at its end are known.  As long as all checks hold, nothing is
noted but the ticks spent waiting.
-/

namespace OnMesh

namespace Certification

variable {α β : Type} {a : α} {b : β} {p q r : Progress} {m m' : Mesh}
  {ticks t mostTicks : Nat}

/-- A part of a certification goes through, with an answer. -/
def Leads (x : Run α) (p : Progress) (a : α) (q : Progress) : Prop :=
  x.run p = .ok (a, q)

/-- A certification that has waited for so many ticks and has found nothing. -/
def passing (m : Mesh) (ticks : Nat) : Progress :=
  ⟨m, ⟨Version.initial, 0, ticks, []⟩⟩

theorem leads_pure (a : α) (p : Progress) : Leads (pure a) p a p := rfl

theorem Leads.bind {x : Run α} {f : α → Run β} (hx : Leads x p a q)
    (hf : Leads (f a) q b r) : Leads (x >>= f) p b r := by
  rw [Leads, StateT.run_bind, hx]
  exact hf

/-- A call that is not refused goes through. -/
theorem leads_call {act : Mesh → Except Fault α × Mesh}
    (h : act m = (.ok a, m')) :
    Leads (call act) (passing m ticks) a (passing m' ticks) := by
  have hget : Leads get (passing m ticks) (passing m ticks)
      (passing m ticks) := rfl
  have hact : act (passing m ticks).mesh = (.ok a, m') := h
  refine hget.bind ?_
  simp only [hact]
  exact Leads.bind (q := passing m' ticks) rfl (leads_pure _ _)

theorem leads_ask {question : Mesh → Except Fault α} (h : question m = .ok a) :
    Leads (ask question) (passing m ticks) a (passing m ticks) :=
  leads_call (by rw [h])

theorem leads_check {ok : Bool} (h : ok = true) (violation : String) :
    Leads (check ok violation) p () p := by
  rw [check, if_pos h]
  rfl

/-- Waiting goes through if the mesh settles in time. -/
theorem leads_settle (h : Mesh.Settles t m m') (hmost : t ≤ mostTicks)
    (ticks : Nat) (stage : String) :
    Leads (settle mostTicks stage) (passing m ticks) ()
      (passing m' (ticks + t)) := by
  have hsettle : m.settle mostTicks = (some t, m') := by
    rw [Mesh.settle, h.settleFrom hmost, Nat.zero_add]
  refine Leads.bind (@leads_call _ (some t) m m' ticks _ ?_) ?_
  · simp only [hsettle]
  · exact Leads.bind (q := passing m' (ticks + t)) rfl (leads_check rfl _)

theorem leads_checkVersion {n : Node} (hn : m.nodes.get? device = some n)
    (stage : String) :
    Leads (checkVersion n.version stage) (passing m ticks) n.version
      (passing m ticks) := by
  refine Leads.bind (leads_ask (a := n.version) ?_) ?_
  · rw [Mesh.version, Mesh.node, hn]
    rfl
  · exact Leads.bind (leads_check (beq_self_eq_true _) _) (leads_pure _ _)

/-- The leader is answered on the address of a prefix if it is
answered on all addresses. -/
theorem leads_checkPingable {n : Node} {net : Prefix}
    (hn : m.nodes.get? device = some n)
    (hnet : ∃ a ∈ n.configuredAddresses, a.net = net)
    (hecho : ∀ a ∈ n.configuredAddresses, m.echo leader a.addr = true)
    (stage : String) :
    Leads (checkPingable net stage) (passing m ticks) () (passing m ticks) := by
  refine Leads.bind (leads_ask (a := n.configuredAddresses) ?_) ?_
  · rw [Mesh.configuredAddresses, Mesh.node, hn]
    rfl
  · obtain ⟨a, ha, hnet⟩ := hnet
    have hfound : ∃ b,
        n.configuredAddresses.find? (fun a => a.net = net) = some b := by
      rw [← Option.isSome_iff_exists, List.find?_isSome]
      exact ⟨a, ha, decide_eq_true hnet⟩
    obtain ⟨b, hb⟩ := hfound
    simp only [hb]
    exact Leads.bind (leads_ask rfl)
      (leads_check (hecho b (List.mem_of_find?_eq_some hb)) _)

end Certification

end OnMesh
