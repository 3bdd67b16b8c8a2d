import OnMesh.Proofs.Version
import OnMesh.Wire.Message

/-!
# What keeps two neighbours in step

Two nodes that admit each other exchange messages over a pair of channels, each
of which keeps the order.  Nothing is sent twice, so whenever one side lags
behind a neighbour that forwards, something on the way must still bring it on:
a message that reaches the newer version, or a message of the lagging side that
makes the other one answer.  `Tied` says so for both directions.  It also says
that no message promises more than its sender holds, unless a later one from the
same sender takes the promise back; this is what keeps the first part alive when
a node takes over a version and skips the neighbour it came from.
-/

namespace OnMesh

open Wire (Message)

namespace Wire.Message

/-- The version at which the message leaves a node that can follow it. -/
def carried? : Message → Option Version
  | .delta d => some d.target
  | .snapshotRequest _ => none
  | .snapshot data => some data.version

/-- The version that a node has to exceed to answer the message. -/
def asked? : Message → Option Version
  | .delta d => some d.target
  | .snapshotRequest held => some held
  | .snapshot _ => none

/-- The message is about a version, or about a later one. -/
def Reaches (m : Message) (v : Version) : Prop :=
  ∃ t, m.carried? = some t ∧ v ≤ t

/-- A node at a version answers the message. -/
def Asks (m : Message) (v : Version) : Prop := ∃ h, m.asked? = some h ∧ h < v

/-- The message is about no later version. -/
def Bounded (v : Version) (m : Message) : Prop :=
  ∀ t, m.carried? = some t → t ≤ v

variable {v : Version} {d : Delta} {held : Version} {data : NetworkData}

@[simp]
theorem reaches_delta : (delta d).Reaches v ↔ v ≤ d.target := by
  simp [Reaches, carried?]

@[simp]
theorem reaches_snapshot : (snapshot data).Reaches v ↔ v ≤ data.version := by
  simp [Reaches, carried?]

@[simp]
theorem asks_delta : (delta d).Asks v ↔ d.target < v := by
  simp [Asks, asked?]

@[simp]
theorem asks_snapshotRequest : (snapshotRequest held).Asks v ↔ held < v := by
  simp [Asks, asked?]

@[simp]
theorem not_asks_snapshot : ¬ (snapshot data).Asks v := by
  simp [Asks, asked?]

@[simp]
theorem bounded_delta : (delta d).Bounded v ↔ d.target ≤ v := by
  simp [Bounded, carried?]

@[simp]
theorem bounded_snapshotRequest : (snapshotRequest held).Bounded v := by
  simp [Bounded, carried?]

@[simp]
theorem bounded_snapshot : (snapshot data).Bounded v ↔ data.version ≤ v := by
  simp [Bounded, carried?]

end Wire.Message

namespace Channel

variable {v w : Version} {m : Message} {ms new : List Message}

/-! ## Promises -/

/-- Every message of a sender at a version is about no later one, unless a later
message of the same sender asks for the difference. -/
def Truthful (v : Version) : List Message → Prop
  | [] => True
  | m :: ms =>
    (∀ t, m.carried? = some t → t ≤ v ∨ ∃ l ∈ ms, l.Asks t) ∧ Truthful v ms

theorem Truthful.mono (h : Truthful v ms) (hle : v ≤ w) : Truthful w ms := by
  induction ms with
  | nil => trivial
  | cons m ms ih =>
      exact ⟨fun t ht => (h.1 t ht).imp_left (le_trans · hle), ih h.2⟩

theorem Truthful.suffix {rest : List Message} (h : Truthful v ms)
    (hrest : rest <:+ ms) : Truthful v rest := by
  obtain ⟨before, rfl⟩ := hrest
  induction before with
  | nil => exact h
  | cons m before ih => exact ih h.2

theorem truthful_of_bounded (h : ∀ m ∈ ms, m.Bounded v) : Truthful v ms := by
  induction ms with
  | nil => trivial
  | cons m ms ih =>
      obtain ⟨hm, hms⟩ := List.forall_mem_cons.1 h
      exact ⟨fun t ht => Or.inl (hm t ht), ih hms⟩

theorem Truthful.append (h : Truthful v ms) (hnew : ∀ m ∈ new, m.Bounded v) :
    Truthful v (ms ++ new) := by
  induction ms with
  | nil => exact truthful_of_bounded hnew
  | cons m ms ih =>
      refine ⟨fun t ht => ?_, ih h.2⟩
      rcases h.1 t ht with hle | ⟨l, hl, hasks⟩
      · exact Or.inl hle
      · exact Or.inr ⟨l, List.mem_append_left new hl, hasks⟩

/-- A message that says where its sender stands makes up for
everything before it. -/
theorem truthful_append_asking {a : Version} (hm : m.Bounded v)
    (hasked : m.asked? = some a) (hle : a ≤ v) : Truthful v (ms ++ [m]) := by
  induction ms with
  | nil => exact ⟨fun t ht => Or.inl (hm t ht), trivial⟩
  | cons first ms ih =>
      refine ⟨fun t _ => ?_, ih⟩
      rcases le_or_gt t v with ht | ht
      · exact Or.inl ht
      · exact Or.inr ⟨m, List.mem_append_right ms List.mem_cons_self, a, hasked,
          lt_of_le_of_lt hle ht⟩

/-! ## Two sides -/

/-- What one end of a link comes down to. -/
structure Side where
  /-- The node is attached and admits the other one. -/
  isOpen : Bool
  version : Version
  forwards : Bool

variable {x x' y : Side} {there there' back back' rest : List Message}

/-- What the messages from `x` to `y`, and those back, say as long as they
pass. -/
structure Kept (x y : Side) (there back : List Message) : Prop where
  truthful : x.isOpen = true → Truthful x.version there
  served : x.isOpen = true → y.isOpen = true → x.forwards = true →
    y.version < x.version →
    (∃ m ∈ there, m.Reaches x.version) ∨ ∃ m ∈ back, m.Asks x.version

/-- Neither side lags behind for good. -/
structure Tied (x y : Side) (there back : List Message) : Prop where
  forth : Kept x y there back
  reverse : Kept y x back there

namespace Tied

theorem symm (h : Tied x y there back) : Tied y x back there :=
  ⟨h.reverse, h.forth⟩

theorem of_closed (hx : x.isOpen = false) (hy : y.isOpen = false) :
    Tied x y there back where
  forth := ⟨fun h => by simp [hx] at h, fun h => by simp [hx] at h⟩
  reverse := ⟨fun h => by simp [hy] at h, fun h => by simp [hy] at h⟩

/-- Once nothing is in between, the side that takes is not behind. -/
theorem le_of_nil (h : Tied x y [] []) (hx : x.isOpen = true)
    (hy : y.isOpen = true) (hforwards : x.forwards = true) :
    x.version ≤ y.version := by
  by_contra hnot
  rcases h.forth.served hx hy hforwards (not_le.1 hnot)
    with ⟨m, hm, -⟩ | ⟨m, hm, -⟩ <;>
  cases hm

/-- A side that is closed may lose everything that it was sent. -/
theorem closed (h : Tied x y there back) (hx : x'.isOpen = false)
    (hback : back' <:+ back) : Tied x' y there' back' where
  forth :=
    ⟨fun hopen => by simp [hx] at hopen, fun hopen => by simp [hx] at hopen⟩
  reverse := ⟨fun hopen => (h.reverse.truthful hopen).suffix hback,
    fun _ hopen => by simp [hx] at hopen⟩

/-- A side that opens says where it stands. -/
theorem greeted {a : Version} (h : Tied x y there back)
    (hm : m.Bounded x'.version) (hasked : m.asked? = some a)
    (hle : a ≤ x'.version)
    (hreaches : y.version < x'.version → m.Reaches x'.version) :
    Tied x' y (there ++ [m]) back where
  forth :=
    ⟨fun _ => truthful_append_asking hm hasked hle, fun _ _ _ hlt =>
      Or.inl ⟨m, List.mem_append_right there List.mem_cons_self, hreaches hlt⟩⟩
  reverse :=
    ⟨h.reverse.truthful, fun _ _ _ hlt =>
      Or.inr ⟨m, List.mem_append_right there List.mem_cons_self, a, hasked,
        lt_of_le_of_lt hle hlt⟩⟩

/-- A side that has gone on without the other one tells it. -/
theorem advanced (h : Tied x y there back) (hopen : x'.isOpen = x.isOpen)
    (hforwards : x'.forwards = x.forwards) (hle : x.version ≤ x'.version)
    (hbounded : ∀ m ∈ new, m.Bounded x'.version)
    (hreaches : x.isOpen = true → x.forwards = true → x.version < x'.version →
      ∃ m ∈ new, m.Reaches x'.version) : Tied x' y (there ++ new) back where
  forth := by
    refine ⟨fun hx => ?_, fun hx hy hf hlt => ?_⟩
    · rw [hopen] at hx
      exact ((h.forth.truthful hx).mono hle).append hbounded
    · rw [hopen] at hx
      rw [hforwards] at hf
      rcases lt_or_eq_of_le hle with hrise | heq
      · obtain ⟨m, hm, hreach⟩ := hreaches hx hf hrise
        exact Or.inl ⟨m, List.mem_append_right there hm, hreach⟩
      · rw [← heq] at hlt ⊢
        rcases h.forth.served hx hy hf hlt with ⟨m, hm, hreach⟩ | hasks
        · exact Or.inl ⟨m, List.mem_append_left new hm, hreach⟩
        · exact Or.inr hasks
  reverse := by
    refine ⟨h.reverse.truthful, fun hy hx hf hlt => ?_⟩
    rw [hopen] at hx
    rcases h.reverse.served hy hx hf (lt_of_le_of_lt hle hlt)
      with hreach | ⟨m, hm, hasks⟩
    · exact Or.inl hreach
    · exact Or.inr ⟨m, List.mem_append_left new hm, hasks⟩

/-- A side that has gone on by what the other one sent need not tell it: a
promise that does not hold any more was taken back. -/
theorem raised (h : Tied x y there (m :: rest)) (hopen : x'.isOpen = x.isOpen)
    (hlt : x.version < x'.version) (hcarried : m.carried? = some x'.version) :
    Tied x' y there rest where
  forth := by
    refine ⟨fun hx => ?_, fun _ hy _ hbehind => ?_⟩
    · rw [hopen] at hx
      exact (h.forth.truthful hx).mono (le_of_lt hlt)
    · rcases (h.reverse.truthful hy).1 _ hcarried with hle | hasks
      · exact absurd hbehind (not_lt.2 hle)
      · exact Or.inr hasks
  reverse := by
    refine ⟨fun hy => (h.reverse.truthful hy).2, fun hy hx hf hbehind => ?_⟩
    rw [hopen] at hx
    rcases h.reverse.served hy hx hf (lt_trans hlt hbehind)
      with ⟨l, hl, hreach⟩ | hasks
    · rcases List.mem_cons.1 hl with rfl | hl
      · obtain ⟨t, ht, hle⟩ := hreach
        rw [hcarried] at ht
        cases ht
        exact absurd hbehind (not_lt.2 hle)
      · exact Or.inl ⟨l, hl, hreach⟩
    · exact Or.inr hasks

/-- A side that stays where it is answers what it is asked for, and asks for
what it cannot follow. -/
theorem answered (h : Tied x y there (m :: rest))
    (hbounded : ∀ m ∈ new, m.Bounded x.version)
    (hanswer : m.Asks x.version → ∃ l ∈ new, l.Reaches x.version)
    (hask : ∀ t, m.carried? = some t → x.version < t →
      ∃ l ∈ new, ∃ a, l.asked? = some a ∧ a ≤ x.version) :
    Tied x y (there ++ new) rest where
  forth := by
    refine ⟨fun hx => (h.forth.truthful hx).append hbounded,
      fun hx hy hf hbehind => ?_⟩
    rcases h.forth.served hx hy hf hbehind with ⟨l, hl, hreach⟩ | ⟨l, hl, hasks⟩
    · exact Or.inl ⟨l, List.mem_append_left new hl, hreach⟩
    · rcases List.mem_cons.1 hl with rfl | hl
      · obtain ⟨l, hl, hreach⟩ := hanswer hasks
        exact Or.inl ⟨l, List.mem_append_right there hl, hreach⟩
      · exact Or.inr ⟨l, hl, hasks⟩
  reverse := by
    refine ⟨fun hy => (h.reverse.truthful hy).2, fun hy hx hf hbehind => ?_⟩
    rcases h.reverse.served hy hx hf hbehind
      with ⟨l, hl, hreach⟩ | ⟨l, hl, hasks⟩
    · rcases List.mem_cons.1 hl with rfl | hl
      · obtain ⟨t, ht, hle⟩ := hreach
        obtain ⟨l, hl, a, hasked, hheld⟩ :=
          hask t ht (lt_of_lt_of_le hbehind hle)
        exact Or.inr ⟨l, List.mem_append_right there hl, a, hasked,
          lt_of_le_of_lt hheld hbehind⟩
      · exact Or.inl ⟨l, hl, hreach⟩
    · exact Or.inr ⟨l, List.mem_append_left new hl, hasks⟩

/-- One message is answered by one. -/
theorem replied {l : Message} (h : Tied x y there (m :: rest))
    (hbounded : l.Bounded x.version)
    (hanswer : m.Asks x.version → l.Reaches x.version)
    (hask : ¬ m.Bounded x.version → ∃ a, l.asked? = some a ∧ a ≤ x.version) :
    Tied x y (there ++ [l]) rest := by
  refine h.answered (by simpa using hbounded) (fun hasks => ?_)
    fun t ht hlt => ?_
  · exact ⟨l, List.mem_cons_self, hanswer hasks⟩
  · exact ⟨l, List.mem_cons_self, hask fun hold => not_lt.2 (hold t ht) hlt⟩

/-- A message that asks for nothing and brings nothing new needs no answer. -/
theorem unanswered (h : Tied x y there (m :: rest)) (hasks : ¬ m.Asks x.version)
    (hbounded : m.Bounded x.version) : Tied x y there rest := by
  have hnone :=
    h.answered (by simp : ∀ l ∈ ([] : List Message), l.Bounded x.version)
    (fun h => absurd h hasks) fun t ht hlt =>
      absurd hlt (not_lt.2 (hbounded t ht))
  rwa [List.append_nil] at hnone

end Tied

end Channel

end OnMesh
