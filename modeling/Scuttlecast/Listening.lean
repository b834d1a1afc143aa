import Scuttlecast.Proto.Codec

/-! What a socket hears. Whatever the kernel glues together, what `recv_batch` or `recv_control`
returns is what some datagram was read as. -/
namespace Scuttlecast
namespace Listener

variable {l : Listener} {i : Incoming} {out arrivals : List Incoming}

theorem mem_of_readPieces {read : Bytes} {stride : ℕ} {ks : List ℕ} {reading : Reading}
    (h : l.readPieces read stride (ks.map (· * stride)) out = .ok reading)
    (hok : reading.result = .ok arrivals) (hi : i ∈ arrivals) : i ∈ out ∨
      ∃ piece ∈ ks.map (Chunks.chunk stride read), classify piece = .ok (.ok i) ∧ l.keeps i := by
  induction ks generalizing out reading with
  | nil =>
    cases h
    cases hok
    exact .inl hi
  | cons k ks ih =>
    rw [List.map_cons, readPieces_cons] at h
    obtain ⟨classified, hclassify, h⟩ := bind_ok_iff.mp h
    cases classified with
    | error e =>
      cases h
      cases hok
    | ok incoming =>
      obtain ⟨rest, hrest, h⟩ := bind_ok_iff.mp h
      cases h
      rcases ih hrest hok with hout | ⟨piece, hpiece, hread⟩
      · split_ifs at hout with hkept
        · rcases List.mem_append.mp hout with hout | hout
          · exact .inl hout
          · rw [List.mem_singleton.mp hout]
            exact .inr ⟨_, List.mem_map_of_mem List.mem_cons_self, hclassify, hkept⟩
        · exact .inl hout
      · rw [List.map_cons]
        exact .inr ⟨piece, List.mem_cons_of_mem _ hpiece, hread⟩

/-- What `recv_batch` returns was cut from its reads and is kept. -/
theorem mem_of_recvBatch {reads : List (Bytes × Option ℕ)}
    (h : l.recvBatch reads out = .ok (some (.ok arrivals))) (hi : i ∈ arrivals) : i ∈ out ∨
      ∃ read ∈ reads, ∃ piece ∈ pieces read.1 read.2, classify piece = .ok (.ok i) ∧ l.keeps i := by
  induction reads generalizing out with
  | nil => cases h
  | cons read reads ih =>
    obtain ⟨reading, hreading, h⟩ := bind_ok_iff.mp h
    obtain ⟨starts, hstarts, hpieces⟩ := bind_ok_iff.mp hreading
    have hmore (hrest : ∃ read ∈ reads, ∃ piece ∈ pieces read.1 read.2,
        classify piece = .ok (.ok i) ∧ l.keeps i) : ∃ r ∈ read :: reads,
        ∃ piece ∈ pieces r.1 r.2, classify piece = .ok (.ok i) ∧ l.keeps i := by
      obtain ⟨r, hr, hrest⟩ := hrest
      exact ⟨r, List.mem_cons_of_mem _ hr, hrest⟩
    split at h
    · cases h
    · rcases ih h with hout | hrest
      · cases hout
      · exact .inr (hmore hrest)
    · next out' hresult =>
      cases h
      unfold stepBy at hstarts
      split_ifs at hstarts
      cases hstarts
      rcases mem_of_readPieces hpieces hresult hi with hout | hread
      · exact .inl hout
      · exact .inr ⟨read, List.mem_cons_self, hread⟩

/-- Pieces of which something can be made are all taken in. -/
theorem readPieces_of_accepted {read : Bytes} {stride : ℕ} {ks : List ℕ}
    (h : ∀ piece ∈ ks.map (Chunks.chunk stride read), Accepted piece) (out : List Incoming) :
    ∃ reading arrivals, l.readPieces read stride (ks.map (· * stride)) out = .ok reading ∧
      reading.result = .ok arrivals := by
  induction ks generalizing out with
  | nil => exact ⟨_, out, rfl, rfl⟩
  | cons k ks ih =>
    rw [List.map_cons, List.forall_mem_cons] at h
    obtain ⟨⟨incoming, hclassify⟩, hrest⟩ := h
    obtain ⟨reading, arrivals, hreading, hresult⟩ :=
      ih hrest (if l.keeps incoming then out ++ [incoming] else out)
    rw [List.map_cons, readPieces_cons, hclassify, ok_bind]
    dsimp only
    rw [hreading, ok_bind]
    exact ⟨_, arrivals, rfl, hresult⟩

theorem recvBatch_of_accepted {reads : List (Bytes × Option ℕ)}
    (h : ∀ read ∈ reads, read.1 ≠ [] ∧ (∀ s ∈ read.2, 0 < s) ∧
      ∀ piece ∈ pieces read.1 read.2, Accepted piece) (out : List Incoming) :
    ∃ received, l.recvBatch reads out = .ok received ∧ ∀ e, received ≠ some (.error e) := by
  induction reads generalizing out with
  | nil => exact ⟨none, rfl, by simp⟩
  | cons read reads ih =>
    obtain ⟨⟨hread, hstride, haccepted⟩, hrest⟩ := List.forall_mem_cons.mp h
    obtain ⟨reading, arrivals, hreading, hresult⟩ := readPieces_of_accepted haccepted out
    have hone : l.readOne read.1 read.2 out = .ok reading := by
      rw [readOne_of_pos (step_pos hread hstride)]
      exact hreading
    rw [recvBatch, hone, ok_bind, hresult]
    cases arrivals with
    | nil => exact ih hrest []
    | cons i arrivals => exact ⟨_, rfl, by simp⟩

end Listener

/-- `recv_control` on the datagrams of the socket, in order; `none` while it waits for another. -/
def recvControl (swallows : Incoming → Bool) (transfer : Option ℕ) :
    List Bytes → Except Panic (Option (Except ProtocolError Message))
  | [] => .ok none
  | datagram :: rest => do
    let classified ← classify (datagram.take maxControlSize)
    match classified with
    | .error e => .ok (some (.error e))
    | .ok incoming =>
      if swallows incoming then recvControl swallows transfer rest
      else match incoming with
        | .control message =>
          if transfer.all (message.transferId = ·) then .ok (some (.ok message))
          else recvControl swallows transfer rest
        | .shard _ => recvControl swallows transfer rest

theorem mem_of_recvControl {swallows : Incoming → Bool} {transfer : Option ℕ}
    {datagrams : List Bytes} {message : Message}
    (h : recvControl swallows transfer datagrams = .ok (some (.ok message))) :
    (∀ id ∈ transfer, message.transferId = id) ∧ ∃ datagram ∈ datagrams,
      classify (datagram.take maxControlSize) = .ok (.ok (.control message)) := by
  induction datagrams with
  | nil => cases h
  | cons datagram rest ih =>
    have hmore (hrest : recvControl swallows transfer rest = .ok (some (.ok message))) :
        (∀ id ∈ transfer, message.transferId = id) ∧ ∃ d ∈ datagram :: rest,
          classify (d.take maxControlSize) = .ok (.ok (.control message)) := by
      obtain ⟨hid, d, hd, hread⟩ := ih hrest
      exact ⟨hid, d, List.mem_cons_of_mem _ hd, hread⟩
    obtain ⟨classified, hclassify, h⟩ := bind_ok_iff.mp h
    cases classified with
    | error e => cases h
    | ok incoming =>
      dsimp only at h
      split_ifs at h with hswallowed
      · exact hmore h
      · cases incoming with
        | shard frame => exact hmore h
        | control m =>
          dsimp only at h
          split_ifs at h with hid
          · cases h
            refine ⟨?_, datagram, List.mem_cons_self, hclassify⟩
            rintro id rfl
            simpa using hid
          · exact hmore h

theorem recvControl_of_accepted {swallows : Incoming → Bool} {transfer : Option ℕ}
    {datagrams : List Bytes} (h : ∀ datagram ∈ datagrams, Accepted (datagram.take maxControlSize)) :
    ∃ received, recvControl swallows transfer datagrams = .ok received ∧
      ∀ e, received ≠ some (.error e) := by
  induction datagrams with
  | nil => exact ⟨none, rfl, by simp⟩
  | cons datagram rest ih =>
    obtain ⟨⟨incoming, hclassify⟩, hrest⟩ := List.forall_mem_cons.mp h
    rw [recvControl, hclassify, ok_bind]
    dsimp only
    split_ifs
    · exact ih hrest
    · cases incoming with
      | shard frame => exact ih hrest
      | control message =>
        dsimp only
        split_ifs
        · exact ⟨_, rfl, by simp⟩
        · exact ih hrest

/-- One `recvmsg`: datagrams that the kernel put one after the other, and the stride it names. -/
structure Read where
  datagrams : List Bytes
  stride : Option ℕ
  deriving DecidableEq, Repr

namespace Read

/-- Without a stride it is one datagram; with one, all have that length but for the last, which may
be shorter. -/
def Glued (read : Read) : Prop :=
  match read.stride with
  | none => read.datagrams.length = 1
  | some stride => read.datagrams ≠ [] ∧
      (∀ datagram ∈ read.datagrams.dropLast, datagram.length = stride) ∧
      ∀ datagram ∈ read.datagrams, datagram ≠ [] ∧ datagram.length ≤ stride

instance (read : Read) : Decidable read.Glued :=
  match h : read.stride with
  | none => decidable_of_iff (read.datagrams.length = 1) (by simp [Glued, h])
  | some stride => decidable_of_iff (read.datagrams ≠ [] ∧
      (∀ datagram ∈ read.datagrams.dropLast, datagram.length = stride) ∧
      ∀ datagram ∈ read.datagrams, datagram ≠ [] ∧ datagram.length ≤ stride) (by simp [Glued, h])

/-- What the socket hands over of it. -/
def received (read : Read) : Bytes × Option ℕ := (read.datagrams.flatten, recvCoalesced read.stride)

/-- A datagram by itself is one piece. -/
theorem pieces_single {datagram : Bytes} (hne : datagram ≠ []) {stride : Option ℕ}
    (hstride : ∀ s ∈ stride, datagram.length ≤ s) : pieces datagram stride = [datagram] := by
  have hwhole : min (stride.getD datagram.length) datagram.length = datagram.length := by
    cases stride with
    | none => exact min_self _
    | some s => exact min_eq_right (hstride s rfl)
  have hpos := List.length_pos_iff.mpr hne
  rw [pieces, hwhole]
  have hcut : Chunks.chunks datagram.length [datagram].flatten = [datagram] :=
    Chunks.chunks_flatten hpos (by simp) (by simp [hne])
  simpa using hcut

/-- The stride cuts a read into its datagrams. -/
theorem mem_of_pieces {read : Read} (h : read.Glued) {piece : Bytes}
    (hpiece : piece ∈ pieces read.received.1 read.received.2) : piece ∈ read.datagrams := by
  rcases read with ⟨datagrams, stride⟩
  cases stride with
  | none =>
    obtain ⟨datagram, rfl⟩ := List.length_eq_one_iff.mp h
    have hread : received ⟨[datagram], none⟩ = (datagram, none) := by simp [received, recvCoalesced]
    rw [hread] at hpiece
    by_cases hne : datagram = []
    · rw [hne] at hpiece
      cases hpiece
    · rwa [pieces_single hne (by simp)] at hpiece
  | some stride =>
    obtain ⟨hne, hfull, hshort⟩ := h
    obtain ⟨datagram, rest, rfl⟩ := List.exists_cons_of_ne_nil hne
    obtain ⟨hfirst, hle⟩ := hshort datagram List.mem_cons_self
    have hpos : 0 < stride := (List.length_pos_iff.mpr hfirst).trans_le hle
    have hread : received ⟨datagram :: rest, some stride⟩ =
        ((datagram :: rest).flatten, some stride) := by simp [received, recvCoalesced, hpos]
    rw [hread] at hpiece
    cases rest with
    | nil =>
      rw [List.flatten_singleton, pieces_single hfirst fun s hs => Option.some.inj hs ▸ hle] at hpiece
      exact hpiece
    | cons next rest =>
      have hlong : stride ≤ (datagram :: next :: rest).flatten.length := by
        rw [List.flatten_cons, List.length_append, hfull datagram (by simp)]
        omega
      have hcut : min ((some stride).getD (datagram :: next :: rest).flatten.length)
          (datagram :: next :: rest).flatten.length = stride := min_eq_left hlong
      rw [pieces, hcut, Chunks.chunks_flatten hpos hfull hshort] at hpiece
      exact hpiece

/-- The read of datagrams that are not empty can be cut. -/
theorem received_ne_nil {read : Read} (h : read.Glued) (hne : ∀ datagram ∈ read.datagrams, datagram ≠ []) :
    read.received.1 ≠ [] ∧ ∀ s ∈ read.received.2, 0 < s := by
  have hsome : read.datagrams ≠ [] := by
    unfold Glued at h
    split at h
    · rintro hnil
      simp [hnil] at h
    · exact h.1
  obtain ⟨datagram, rest, hread⟩ := List.exists_cons_of_ne_nil hsome
  constructor
  · intro hnil
    rw [received, List.flatten_eq_nil_iff] at hnil
    exact hne datagram (by simp [hread]) (hnil datagram (by simp [hread]))
  · intro s hs
    exact of_decide_eq_true (Option.mem_filter_iff.mp hs).2

end Read
end Scuttlecast
