import OnMesh.Proofs.Mesh.Runs

/-!
# What every reachable mesh has in common

Whatever is asked of a mesh, and whatever calls are made on its nodes, hardware
addresses tell the stations apart and every node was built with acceptable
settings.  The parts of a node agree on who it is, the data of an authority are
in step with its pool, and a detached node has no frames to handle.  What an
edit makes of the data can always be written.
-/

namespace OnMesh

open Wire (Frame)

namespace Mesh

variable {m m' : Mesh} {s t : Station}

/-- Every node is listed, and all settings are acceptable. -/
structure Registered (m : Mesh) : Prop where
  located : m.Located
  acceptable : m.Holds fun n => n.settings.validate = .ok ()

theorem registered_make (settings : Settings) : (make settings).Registered :=
  ⟨located_make settings, fun _ _ hn => (nomatch hn)⟩

theorem Registered.perform (h : m.Registered) (op : Op) :
    (m.perform op).Registered where
  located := h.located.perform op
  acceptable := by
    refine Each.perform (P := fun _ n => n.settings.validate = .ok ())
      (fun s n c hn => ?_)
      h.acceptable fun s role _ => ?_
    · rw [(n.alike_after c).settings]
      exact hn
    · rcases m.addNode_snd s role with heq | ⟨id, stream, -, hvalid, -, heq⟩
      · rw [heq]
        exact h.acceptable
      · rw [heq]
        exact Each.of_nodes (Each.insert h.acceptable hvalid) rfl

theorem registered_foldl_perform (settings : Settings) (ops : List Op) :
    (ops.foldl Mesh.perform (make settings)).Registered :=
  List.foldlRecOn ops Mesh.perform (registered_make settings) fun _ h op _ =>
    h.perform op

/-- What holds of every node in every state that operations lead to. -/
structure Upright (n : Node) : Prop where
  formed : n.Formed
  stocked : n.Stocked
  vacant : n.Vacant

theorem upright_make (id : NodeId) (role : Role) (settings : NodeSettings) :
    Upright (Node.make id role settings) :=
  ⟨Node.formed_make id role settings,
    Node.stocked_make id role settings, fun _ => rfl⟩

theorem Upright.after {n : Node} (h : Upright n) (c : Node.Call) :
    Upright (n.after c) :=
  ⟨h.formed.of_alike (Node.alike_after n c), h.stocked.after c,
    h.vacant.after c⟩

theorem upright_foldl_perform (settings : Settings) (ops : List Op) :
    (ops.foldl Mesh.perform (make settings)).Holds Upright :=
  holds_foldl_perform (fun _ c h => h.after c) upright_make settings ops

/-- The delta of the edit can be written, by whoever passes it on. -/
theorem writable_between {a : Node} {c : Node.Call} (hup : Upright a)
    (hvalid : a.settings.validate = .ok ()) (hrole : a.role = .authority)
    (hrises : a.version < (a.after c).version) (sender : NodeId) :
    ∃ bytes header, (Frame.make sender
        (.delta (Delta.between a.data (a.after c).data))).serialize =
          .ok bytes ∧
      Frame.parse bytes = .ok ⟨header,
        .delta (Delta.between a.data (a.after c).data)⟩ ∧
        header.sender = sender := by
  have hpublish : a.role.canPublish = true :=
    Role.canPublish_eq_true_iff.2 hrole
  have halike := a.alike_after c
  have hfits : ∀ data ∈ ({a.data, (a.after c).data} : Set NetworkData),
      data.Fits := by
    rintro data (rfl | rfl)
    · exact hup.stocked.fits hpublish hvalid
    · exact (hup.stocked.after c).fits (by rw [halike.role]; exact hpublish)
        (by rw [halike.settings]; exact hvalid)
  exact Frame.serialize_of_within hfits sender
    ⟨a.data, Set.mem_insert _ _, (a.after c).data,
      Set.mem_insert_of_mem _ rfl, hrises, rfl⟩

end Mesh

end OnMesh
