import Scuttlecast.Proto.Frame
import Scuttlecast.Library.Chunks

/-! The receiving end of the socket. A read may hold several datagrams of one sender, which the
kernel put one after the other; it is cut at the stride the kernel names, and each piece is
classified by its first byte. -/
namespace Scuttlecast

def Message.transferId : Message → ℕ
  | .hello m => m.transferId
  | .join transferId _ => transferId
  | .leave transferId _ => transferId
  | .stats m => m.transferId
  | .nak m => m.transferId
  | .evicted m => m.transferId
  | .done m => m.transferId

def Incoming.belongsTo (transferId : ℕ) : Incoming → Bool
  | .shard frame => frame.transferId = transferId % 2 ^ 32
  | .control message => message.transferId = transferId

section Decoder

variable (decodeBody : Bytes → Except Panic (Option Message))

/-- `classify`, with `bincode`'s decoder for a parameter. -/
def classifyBy : Bytes → Except Panic (Except ProtocolError Incoming)
  | [] => .ok (.error (.frameTooShort 0))
  | tag :: rest =>
    if tag = controlTag then do
      let decoded ← Message.decodeBy decodeBody (tag :: rest)
      .ok (decoded.map .control)
    else do
      let parsed ← Frame.parse (tag :: rest)
      .ok (parsed.map .shard)

end Decoder

/-- `classify`, where `bincode` returns. -/
def classify (datagram : Bytes) : Except Panic (Except ProtocolError Incoming) :=
  classifyBy Message.bincode datagram

/-- `(0..len).step_by(stride)`. -/
def stepBy (len stride : ℕ) : Except Panic (List ℕ) :=
  if stride = 0 then .error (.assert "assertion failed: step != 0")
  else .ok ((List.range (Chunks.divCeil len stride)).map (· * stride))

/-- What one read came to: the pieces handed to `classify`, and what was collected or the error
that ended the loop. -/
structure Reading where
  handed : List Bytes
  result : Except ProtocolError (List Incoming)

/-- The socket's settings that the loop reads: the transfer it is for, and the rule by which a
test drops what arrives. -/
structure Listener where
  transferId : ℕ
  swallows : Incoming → Bool

namespace Listener

def keeps (l : Listener) (incoming : Incoming) : Bool :=
  incoming.belongsTo l.transferId && !l.swallows incoming

section Decoder

variable (decodeBody : Bytes → Except Panic (Option Message))

/-- The loop over the offsets. -/
def readPiecesBy (l : Listener) (read : Bytes) (stride : ℕ) :
    List ℕ → List Incoming → Except Panic Reading
  | [], out => .ok ⟨[], .ok out⟩
  | start :: starts, out => do
    let piece := (read.drop start).take (min (start + stride) read.length - start)
    let classified ← classifyBy decodeBody piece
    match classified with
    | .error e => .ok ⟨[piece], .error e⟩
    | .ok incoming => do
      let out := if l.keeps incoming then out ++ [incoming] else out
      let reading ← l.readPiecesBy read stride starts out
      .ok ⟨piece :: reading.handed, reading.result⟩

/-- One turn of `recv_batch`, on a read and the stride that came with it, if any. -/
def readOneBy (l : Listener) (read : Bytes) (stride : Option ℕ) (out : List Incoming) :
    Except Panic Reading := do
  let stride := min (stride.getD read.length) read.length
  let starts ← stepBy read.length stride
  l.readPiecesBy decodeBody read stride starts out

end Decoder

def readPieces (l : Listener) (read : Bytes) (stride : ℕ) (starts : List ℕ) (out : List Incoming) :
    Except Panic Reading :=
  l.readPiecesBy Message.bincode read stride starts out

def readOne (l : Listener) (read : Bytes) (stride : Option ℕ) (out : List Incoming) :
    Except Panic Reading :=
  l.readOneBy Message.bincode read stride out

/-- `recv_batch` on the reads of the socket, in order; `none` while it waits for another. -/
def recvBatch (l : Listener) : List (Bytes × Option ℕ) → List Incoming →
    Except Panic (Option (Except ProtocolError (List Incoming)))
  | [], _ => .ok none
  | (read, stride) :: reads, out => do
    let reading ← l.readOne read stride out
    match reading.result with
    | .error e => .ok (some (.error e))
    | .ok [] => l.recvBatch reads []
    | .ok out => .ok (some (.ok out))

end Listener

/-- `recv_coalesced`: the stride is the kernel's, where it names one that is not zero. -/
def recvCoalesced (hint : Option ℕ) : Option ℕ := hint.filter (0 < ·)

/-- Whether `classify` makes anything of a piece. -/
def Accepted (piece : Bytes) : Prop := ∃ incoming, classify piece = .ok (.ok incoming)

theorem classify_cons (tag : UInt8) (rest : Bytes) : classify (tag :: rest) =
    if tag = controlTag then .ok ((Message.decode (tag :: rest)).map .control)
    else (Frame.parse (tag :: rest) >>= fun parsed => .ok (parsed.map .shard)) := by
  rw [classify, classifyBy, Message.decodeBy_bincode, ok_bind]

section Decoder

variable {decodeBody : Bytes → Except Panic (Option Message)} {piece : Bytes}

/-- The decoder returns on the body of the piece, if that is a control message's. -/
def Decodes (decodeBody : Bytes → Except Panic (Option Message)) (piece : Bytes) : Prop :=
  ∀ body, piece = controlTag :: body → ∃ decoded, decodeBody body = .ok decoded

/-- `classify` makes something of a piece with this decoder. -/
def AcceptedBy (decodeBody : Bytes → Except Panic (Option Message)) (piece : Bytes) : Prop :=
  ∃ incoming, classifyBy decodeBody piece = .ok (.ok incoming)

theorem decodes_bincode (piece : Bytes) : Decodes Message.bincode piece := fun _ _ => ⟨_, rfl⟩

/-- `classify` panics on nothing but what the decoder panics on. -/
theorem classifyBy_returns_iff :
    (∃ classified, classifyBy decodeBody piece = .ok classified) ↔ Decodes decodeBody piece := by
  cases piece with
  | nil => exact iff_of_true ⟨_, rfl⟩ fun body hbody => by cases hbody
  | cons tag rest =>
    by_cases htag : tag = controlTag
    · subst htag
      rcases hdecoded : decodeBody rest with p | decoded
      · refine iff_of_false ?_ fun hdecodes => ?_
        · rw [classifyBy, if_pos rfl, Message.decodeBy, if_neg (not_not.mpr rfl), hdecoded]
          rintro ⟨classified, hreturns⟩
          cases hreturns
        · obtain ⟨decoded, hreturns⟩ := hdecodes rest rfl
          cases hdecoded.symm.trans hreturns
      · refine iff_of_true ?_ fun body hbody => ?_
        · cases decoded <;> simp [classifyBy, Message.decodeBy, hdecoded]
        · obtain rfl := (List.cons.inj hbody).2
          exact ⟨decoded, hdecoded⟩
    · refine iff_of_true ?_ fun body hbody => absurd (List.cons.inj hbody).1 htag
      rw [classifyBy, if_neg htag, Frame.parse_eq, ok_bind]
      exact ⟨_, rfl⟩

/-- The decoder returns on every piece that the loop gets to. -/
def Passes (decodeBody : Bytes → Except Panic (Option Message)) : List Bytes → Prop
  | [] => True
  | piece :: rest =>
    Decodes decodeBody piece ∧ (AcceptedBy decodeBody piece → Passes decodeBody rest)

theorem passes_of_decodes {pieces : List Bytes} (h : ∀ piece ∈ pieces, Decodes decodeBody piece) :
    Passes decodeBody pieces := by
  induction pieces with
  | nil => trivial
  | cons piece rest ih =>
    rw [List.forall_mem_cons] at h
    exact ⟨h.1, fun _ => ih h.2⟩

/-- Where it gets to all of them, it returns on all. -/
theorem Passes.decodes {pieces : List Bytes} (h : Passes decodeBody pieces)
    (haccepted : ∀ piece ∈ pieces.dropLast, AcceptedBy decodeBody piece) :
    ∀ piece ∈ pieces, Decodes decodeBody piece := by
  induction pieces with
  | nil => simp
  | cons piece rest ih =>
    obtain ⟨hfirst, hmore⟩ := h
    refine List.forall_mem_cons.mpr ⟨hfirst, ?_⟩
    cases rest with
    | nil => simp
    | cons next rest =>
      rw [List.dropLast_cons_cons, List.forall_mem_cons] at haccepted
      exact ih (hmore haccepted.1) haccepted.2

end Decoder

/-- The pieces of a read, cut as the loop cuts them. -/
def pieces (read : Bytes) (stride : Option ℕ) : List Bytes :=
  Chunks.chunks (min (stride.getD read.length) read.length) read

variable {decodeBody : Bytes → Except Panic (Option Message)} {l : Listener} {read : Bytes}
  {stride : Option ℕ} {out : List Incoming}

theorem stepBy_of_pos {len stride : ℕ} (h : 0 < stride) :
    stepBy len stride = .ok ((List.range (Chunks.divCeil len stride)).map (· * stride)) :=
  if_neg (by omega)

theorem piece_eq_chunk (read : Bytes) (stride k : ℕ) :
    (read.drop (k * stride)).take (min (k * stride + stride) read.length - k * stride) =
      Chunks.chunk stride read k := by
  have hlen : (read.drop (k * stride)).length = read.length - k * stride := List.length_drop
  rw [Chunks.chunk, List.take_eq_take_iff, hlen]
  omega

theorem forall_mem_dropLast_cons {P : Bytes → Prop} {piece : Bytes} {rest : List Bytes} :
    (∀ p ∈ (piece :: rest).dropLast, P p) ↔ (rest ≠ [] → P piece) ∧ ∀ p ∈ rest.dropLast, P p := by
  cases rest <;> simp

/-- A frame with a payload is classified as itself. -/
theorem classify_bytes {frame : Frame} (h : frame.InRange) (hpayload : frame.payload ≠ []) :
    classify frame.bytes = .ok (.ok (.shard frame)) := by
  have hparse := Frame.parse_bytes h hpayload
  obtain ⟨rest, hrest⟩ : ∃ rest, frame.bytes = frameTag :: rest := ⟨_, rfl⟩
  rw [hrest] at hparse ⊢
  rw [classify_cons, if_neg (by decide), hparse]
  rfl

namespace Listener

theorem readPieces_cons (l : Listener) (read : Bytes) (stride k : ℕ) (starts : List ℕ)
    (out : List Incoming) : l.readPieces read stride (k * stride :: starts) out =
      (classify (Chunks.chunk stride read k) >>= fun classified =>
        match classified with
        | .error e => .ok ⟨[Chunks.chunk stride read k], .error e⟩
        | .ok incoming =>
          l.readPieces read stride starts (if l.keeps incoming then out ++ [incoming] else out) >>=
            fun reading => .ok ⟨Chunks.chunk stride read k :: reading.handed, reading.result⟩) := by
  rw [readPieces, readPiecesBy, piece_eq_chunk]
  rfl

theorem readOne_of_pos (hpos : 0 < min (stride.getD read.length) read.length) :
    l.readOne read stride out =
      l.readPieces read (min (stride.getD read.length) read.length)
        ((List.range (Chunks.divCeil read.length (min (stride.getD read.length) read.length))).map
          (· * min (stride.getD read.length) read.length)) out := by
  rw [readOne, readOneBy, stepBy_of_pos hpos, ok_bind]
  rfl

/-- The loop panics only where the decoder does. It hands over the pieces in order: all of them,
unless one before the last is refused. -/
theorem readPiecesBy_handed (read : Bytes) (stride : ℕ) (ks : List ℕ) (out : List Incoming) :
    ((∃ reading, l.readPiecesBy decodeBody read stride (ks.map (· * stride)) out = .ok reading) ↔
      Passes decodeBody (ks.map (Chunks.chunk stride read))) ∧
    ∀ reading, l.readPiecesBy decodeBody read stride (ks.map (· * stride)) out = .ok reading →
      reading.handed <+: ks.map (Chunks.chunk stride read) ∧
      (reading.handed = ks.map (Chunks.chunk stride read) ↔
        ∀ piece ∈ (ks.map (Chunks.chunk stride read)).dropLast, AcceptedBy decodeBody piece) := by
  induction ks generalizing out with
  | nil =>
    refine ⟨iff_of_true ⟨⟨[], .ok out⟩, rfl⟩ trivial, fun reading hreading => ?_⟩
    cases hreading
    simp
  | cons k ks ih =>
    rw [List.map_cons, List.map_cons, readPiecesBy, piece_eq_chunk, forall_mem_dropLast_cons]
    rcases hclassify : classifyBy decodeBody (Chunks.chunk stride read k) with p | classified
    · have hpanics : ¬ Decodes decodeBody (Chunks.chunk stride read k) := by
        rw [← classifyBy_returns_iff, hclassify]
        rintro ⟨classified, hreturns⟩
        cases hreturns
      refine ⟨iff_of_false ?_ fun hpasses => hpanics hpasses.1, fun reading hreading => ?_⟩
      · rintro ⟨reading, hreading⟩
        cases hreading
      · cases hreading
    have hdecodes : Decodes decodeBody (Chunks.chunk stride read k) :=
      classifyBy_returns_iff.mp ⟨classified, hclassify⟩
    rw [ok_bind]
    cases classified with
    | error e =>
      have hrefused : ¬ AcceptedBy decodeBody (Chunks.chunk stride read k) := by
        rintro ⟨incoming, hincoming⟩
        cases hclassify.symm.trans hincoming
      refine ⟨iff_of_true ⟨_, rfl⟩ ⟨hdecodes, fun haccepted => absurd haccepted hrefused⟩,
        fun reading hreading => ?_⟩
      cases hreading
      refine ⟨by simp, ?_⟩
      constructor
      · intro hall
        have hrest : ks.map (Chunks.chunk stride read) = [] := (List.cons.inj hall).2.symm
        simp [hrest]
      · rintro ⟨hfirst, -⟩
        have hrest : ks.map (Chunks.chunk stride read) = [] := by
          by_contra hne
          exact hrefused (hfirst hne)
        rw [hrest]
    | ok incoming =>
      obtain ⟨hreturns, hhanded⟩ := ih (if l.keeps incoming then out ++ [incoming] else out)
      have haccepted : AcceptedBy decodeBody (Chunks.chunk stride read k) := ⟨incoming, hclassify⟩
      dsimp only
      constructor
      · rw [Passes, and_iff_right hdecodes, forall_prop_of_true haccepted, ← hreturns]
        constructor
        · rintro ⟨reading, hreading⟩
          obtain ⟨rest, hrest, -⟩ := bind_ok_iff.mp hreading
          exact ⟨rest, hrest⟩
        · rintro ⟨rest, hrest⟩
          rw [hrest, ok_bind]
          exact ⟨_, rfl⟩
      · intro reading hreading
        obtain ⟨rest, hrest, hreading⟩ := bind_ok_iff.mp hreading
        obtain ⟨hpre, hall⟩ := hhanded rest hrest
        cases hreading
        refine ⟨by simpa using hpre, ?_⟩
        simp [hall, haccepted]

/-- There is something to step by, if there is something to read. -/
theorem step_pos (hread : read ≠ []) (hstride : ∀ s ∈ stride, 0 < s) :
    0 < min (stride.getD read.length) read.length := by
  have hlen := List.length_pos_iff.mpr hread
  cases stride with
  | none => simpa using hlen
  | some s => exact lt_min (hstride s rfl) hlen

/-- A read that is not empty is handed over piece by piece, up to the first refusal or panic. -/
theorem readOneBy_handed (hread : read ≠ []) (hstride : ∀ s ∈ stride, 0 < s) :
    ((∃ reading, l.readOneBy decodeBody read stride out = .ok reading) ↔
      Passes decodeBody (pieces read stride)) ∧
    ∀ reading, l.readOneBy decodeBody read stride out = .ok reading →
      reading.handed <+: pieces read stride ∧
      (reading.handed = pieces read stride ↔
        ∀ piece ∈ (pieces read stride).dropLast, AcceptedBy decodeBody piece) := by
  rw [readOneBy, stepBy_of_pos (step_pos hread hstride), ok_bind]
  exact readPiecesBy_handed read _ _ out

/-- Where the decoder returns, so does the loop. -/
theorem readOne_handed (hread : read ≠ []) (hstride : ∀ s ∈ stride, 0 < s) :
    ∃ reading, l.readOne read stride out = .ok reading ∧ reading.handed <+: pieces read stride ∧
      (reading.handed = pieces read stride ↔
        ∀ piece ∈ (pieces read stride).dropLast, Accepted piece) := by
  obtain ⟨hreturns, hhanded⟩ :=
    @readOneBy_handed Message.bincode l read stride out hread hstride
  obtain ⟨reading, hreading⟩ := hreturns.mpr (passes_of_decodes fun piece _ => decodes_bincode piece)
  exact ⟨reading, hreading, hhanded reading hreading⟩

theorem readOneBy_nil :
    l.readOneBy decodeBody [] stride out = .error (.assert "assertion failed: step != 0") := by
  have hzero : min (stride.getD ([] : Bytes).length) ([] : Bytes).length = 0 := by simp
  rw [readOneBy, hzero]
  rfl

theorem readOne_nil : l.readOne [] stride out = .error (.assert "assertion failed: step != 0") :=
  readOneBy_nil

/-- The read is cut into pieces of the stride, the last one perhaps shorter, all of them are handed
over, and `classify` returns on each. -/
def HandsOver (l : Listener) (decodeBody : Bytes → Except Panic (Option Message)) (read : Bytes)
    (stride : Option ℕ) (out : List Incoming) : Prop :=
  ∃ reading, l.readOneBy decodeBody read stride out = .ok reading ∧ reading.handed.flatten = read ∧
    (∀ piece ∈ reading.handed.dropLast, piece.length = stride.getD read.length) ∧
      ∀ piece ∈ reading.handed, piece.length ≤ stride.getD read.length ∧
        ∃ classified, classifyBy decodeBody piece = .ok classified

variable {handed : List Bytes}

/-- Nothing is lost of a read only if all its pieces are handed over. -/
theorem eq_pieces_of_flatten (hpos : 0 < min (stride.getD read.length) read.length)
    (hpre : handed <+: pieces read stride) (hflatten : handed.flatten = read) :
    handed = pieces read stride := by
  obtain ⟨rest, hrest⟩ := hpre
  have hall : (handed ++ rest).flatten = read := by
    rw [hrest]
    exact Chunks.flatten_chunks hpos read
  rw [List.flatten_append, hflatten] at hall
  have hempty : rest.flatten = [] := List.append_right_eq_self.mp hall
  have hnone : rest = [] := by
    apply List.eq_nil_iff_forall_not_mem.mpr
    intro piece hpiece
    apply Chunks.chunk_ne_nil_of_mem hpos (hrest ▸ List.mem_append_right handed hpiece)
    exact List.flatten_eq_nil_iff.mp hempty piece hpiece
  rw [← hrest, hnone, List.append_nil]

/-- On every read the socket can return, and every stride beside it, whatever the decoder does: the
loop returns exactly when the read is not empty and the decoder returns on every piece the loop gets
to; and it hands over the whole read in pieces of the stride, and `classify` returns on each, exactly
when the read is not empty, the decoder returns on all its pieces, and none but the last is
refused. -/
theorem handsOver_iff (l : Listener) (decodeBody : Bytes → Except Panic (Option Message))
    (read : Bytes) (hint : Option ℕ) (out : List Incoming) :
    ((∃ reading, l.readOneBy decodeBody read (recvCoalesced hint) out = .ok reading) ↔
      read ≠ [] ∧ Passes decodeBody (pieces read (recvCoalesced hint))) ∧
    (l.HandsOver decodeBody read (recvCoalesced hint) out ↔
      read ≠ [] ∧ (∀ piece ∈ pieces read (recvCoalesced hint), Decodes decodeBody piece) ∧
        ∀ piece ∈ (pieces read (recvCoalesced hint)).dropLast, AcceptedBy decodeBody piece) := by
  have hstride : ∀ s ∈ recvCoalesced hint, 0 < s := by
    intro s hs
    simpa using (Option.mem_filter_iff.mp hs).2
  generalize recvCoalesced hint = stride at hstride ⊢
  by_cases hread : read = []
  · subst hread
    have hpanic : ∀ reading, l.readOneBy decodeBody [] stride out ≠ .ok reading := by
      intro reading
      rw [readOneBy_nil]
      exact nofun
    constructor
    · simpa using hpanic
    · simp [HandsOver, hpanic]
  · have hpos := step_pos hread hstride
    obtain ⟨hreturns, hhanded⟩ := @readOneBy_handed decodeBody l read stride out hread hstride
    constructor
    · rw [hreturns, and_iff_right hread]
    · constructor
      · rintro ⟨reading, hreading, hflatten, -⟩
        obtain ⟨hpre, hall⟩ := hhanded reading hreading
        have haccepted := hall.mp (eq_pieces_of_flatten hpos hpre hflatten)
        exact ⟨hread, (hreturns.mp ⟨reading, hreading⟩).decodes haccepted, haccepted⟩
      · rintro ⟨-, hdecodes, haccepted⟩
        obtain ⟨reading, hreading⟩ := hreturns.mpr (passes_of_decodes hdecodes)
        have hwhole := (hhanded reading hreading).2.mpr haccepted
        refine ⟨reading, hreading, ?_, ?_, ?_⟩
        · rw [hwhole]
          exact Chunks.flatten_chunks hpos read
        · intro piece hpiece
          rw [hwhole] at hpiece
          obtain ⟨hlength, hmore⟩ := Chunks.length_of_mem_dropLast hpos hpiece
          omega
        · intro piece hpiece
          rw [hwhole] at hpiece
          have := Chunks.length_le_of_mem hpiece
          exact ⟨by omega, classifyBy_returns_iff.mpr (hdecodes piece hpiece)⟩

/-- An empty datagram, which any peer can send, is a read without a stride. -/
theorem empty_datagram_panics :
    (⟨0, fun _ => false⟩ : Listener).readOne [] (recvCoalesced none) [] =
        .error (.assert "assertion failed: step != 0") ∧
      ¬ (⟨0, fun _ => false⟩ : Listener).HandsOver Message.bincode [] (recvCoalesced none) [] := by
  refine ⟨rfl, ?_⟩
  rintro ⟨reading, hreading, -⟩
  cases hreading

/-- Pieces that are frames of the transfer are collected in order. -/
theorem readPieces_frames {size : ℕ} {ks : List ℕ} {frames : List Frame}
    (hpieces : ks.map (Chunks.chunk size read) = frames.map Frame.bytes)
    (hframes : ∀ frame ∈ frames, frame.InRange ∧ frame.payload ≠ [] ∧
      l.keeps (.shard frame)) (out : List Incoming) :
    l.readPieces read size (ks.map (· * size)) out =
      .ok ⟨frames.map Frame.bytes, .ok (out ++ frames.map .shard)⟩ := by
  induction ks generalizing frames out with
  | nil =>
    have hnone : frames = [] := List.map_eq_nil_iff.mp hpieces.symm
    subst hnone
    simp [readPieces, readPiecesBy]
  | cons k ks ih =>
    cases frames with
    | nil => cases hpieces
    | cons frame frames =>
      obtain ⟨hfirst, hrest⟩ := List.cons.inj hpieces
      obtain ⟨hrange, hpayload, hkept⟩ := hframes frame List.mem_cons_self
      have htail := ih hrest (fun f hf => hframes f (List.mem_cons_of_mem frame hf))
        (out ++ [.shard frame])
      rw [List.map_cons, readPieces_cons, hfirst, classify_bytes hrange hpayload, ok_bind]
      dsimp only
      rw [if_pos hkept, htail, ok_bind]
      simp

/-- A buffer of frames of one size, read with that size for its stride, gives the frames. -/
theorem readOne_frames {size : ℕ} {frames : List Frame} (hne : frames ≠ [])
    (hsize : ∀ frame ∈ frames, frame.bytes.length = size)
    (hframes : ∀ frame ∈ frames, frame.InRange ∧ frame.payload ≠ [] ∧
      l.keeps (.shard frame)) :
    l.readOne (frames.flatMap Frame.bytes) (some size) [] =
      .ok ⟨frames.map Frame.bytes, .ok (frames.map .shard)⟩ := by
  obtain ⟨frame, rest, rfl⟩ := List.exists_cons_of_ne_nil hne
  have hfirst := hsize frame List.mem_cons_self
  have hpos : 0 < size := by
    rw [← hfirst, Frame.length_bytes]
    exact Nat.add_pos_left (by decide) _
  have hlong : size ≤ ((frame :: rest).flatMap Frame.bytes).length := by
    rw [List.flatMap_cons, List.length_append]
    omega
  have hstride : min ((some size).getD ((frame :: rest).flatMap Frame.bytes).length)
      ((frame :: rest).flatMap Frame.bytes).length = size := min_eq_left hlong
  rw [readOne_of_pos (hstride.symm ▸ hpos), hstride]
  exact readPieces_frames (Chunks.chunks_flatMap hpos hsize) hframes []

end Listener

end Scuttlecast
