import Scuttlecast.Receiver.Assembler
import Mathlib.Data.List.Count
import Mathlib.Logic.Function.Basic

/-! What a buffered slice holds, and when and with what result its blocks are recovered from the
codec. -/
namespace Scuttlecast
namespace Assembler

/-- The payload held for a slot. -/
def Slice.payload (s : Slice) (slot : ℕ) : Option Bytes := s.slots[slot]?.join

/-- How many of the first `n` slots are held. -/
def Slice.below (s : Slice) (n : ℕ) : ℕ := (s.slots.take n).countP (·.isSome)

/-- How many slots from `n` on are held. -/
def Slice.above (s : Slice) (n : ℕ) : ℕ := (s.slots.drop n).countP (·.isSome)

/-- What holds of a slice filled with shards that passed their checks: its shape, the count of
what it holds, the size of every payload, and parity slots inside its one width. -/
structure Slice.Wf (g : Geometry) (s : Slice) : Prop where
  length : s.slots.length = g.blocksPerSlice + g.parityPerSlice
  received : s.received = s.slots.countP (·.isSome)
  size : ∀ slot payload, s.payload slot = some payload → payload.length = g.blockSize
  width : s.parityWidth ≤ g.parityPerSlice
  parity : ∀ slot payload, s.payload slot = some payload → g.blocksPerSlice ≤ slot →
    slot - g.blocksPerSlice < s.parityWidth

section Payload

variable {s : Slice} {g : Geometry} {slot n : ℕ}

theorem Slice.payload_eq_some {payload : Bytes} :
    s.payload slot = some payload ↔ s.slots[slot]? = some (some payload) := by
  unfold Slice.payload
  rcases s.slots[slot]? with _ | _ | p <;> simp

theorem Slice.payload_of_le (h : s.slots.length ≤ slot) : s.payload slot = none := by
  simp [payload, List.getElem?_eq_none h]

@[simp] theorem Slice.payload_empty (totalSlots slot : ℕ) :
    (Slice.empty totalSlots).payload slot = none := by
  unfold payload Slice.empty
  rw [List.getElem?_replicate]
  split_ifs <;> rfl

theorem Slice.empty_wf (g : Geometry) :
    (Slice.empty (g.blocksPerSlice + g.parityPerSlice)).Wf g where
  length := by simp [Slice.empty]
  received := by simp [Slice.empty, List.countP_replicate]
  size := by simp
  width := Nat.zero_le _
  parity := by simp

theorem Slice.below_add_above (s : Slice) (n : ℕ) :
    s.below n + s.above n = s.slots.countP (·.isSome) := by
  rw [below, above, ← List.countP_append, List.take_append_drop]

theorem Slice.below_le (s : Slice) (n : ℕ) : s.below n ≤ n :=
  List.countP_le_length.trans (by simp)

/-- Every data slot below the target is held. -/
theorem Slice.dataPresent_iff :
    s.dataPresent n = true ↔ ∀ slot < min n s.slots.length, (s.payload slot).isSome := by
  unfold dataPresent
  rw [List.all_eq_true]
  constructor
  · intro h slot hslot
    have hget : s.slots[slot]? = some (s.slots[slot]) := List.getElem?_eq_getElem _
    have hmem : s.slots[slot] ∈ s.slots.take n :=
      List.mem_iff_getElem?.mpr ⟨slot, by rw [List.getElem?_take_of_lt (by omega), hget]⟩
    simpa [payload, hget] using h _ hmem
  · intro h x hx
    obtain ⟨slot, hslot⟩ := List.mem_iff_getElem?.mp hx
    rw [List.getElem?_take] at hslot
    split_ifs at hslot with hlt
    have hlen := (List.getElem?_eq_some_iff.mp hslot).1
    simpa [payload, hslot] using h slot (by omega)

theorem Slice.dataPresent_iff_below (hn : n ≤ s.slots.length) :
    s.dataPresent n = true ↔ s.below n = n := by
  unfold dataPresent below
  have hlen : (s.slots.take n).length = n := by simp [hn]
  rw [List.all_eq_true, ← List.countP_eq_length, hlen]

end Payload

section Insert

variable {s s' : Slice} {g : Geometry} {slot parityWidth : ℕ} {payload : Bytes}

/-- A slot is taken when it exists, is free, and names no second width. -/
theorem Slice.insert_eq_true (h : s.insert slot parityWidth payload = (true, s')) :
    s.slots[slot]? = some none ∧
      (0 < parityWidth → 0 < s.parityWidth → s.parityWidth = parityWidth) ∧
      s' = { slots := s.slots.set slot (some payload)
             received := s.received + 1
             parityWidth := if 0 < parityWidth then parityWidth else s.parityWidth } := by
  unfold insert at h
  rcases hslot : s.slots[slot]? with _ | _ | p <;> simp only [hslot] at h
  · simp at h
  · split at h
    next => simp at h
    next hw =>
      simp only [Prod.mk.injEq, true_and] at h
      refine ⟨rfl, fun h1 h2 => ?_, h.symm⟩
      by_contra hne
      exact hw ⟨h1, h2, hne⟩
  · simp at h

theorem Slice.insert_eq_false (h : s.insert slot parityWidth payload = (false, s')) :
    s' = s ∧ (s.slots.length ≤ slot ∨ (s.payload slot).isSome ∨
      0 < parityWidth ∧ 0 < s.parityWidth ∧ s.parityWidth ≠ parityWidth) := by
  unfold insert at h
  rcases hslot : s.slots[slot]? with _ | _ | p <;> simp only [hslot] at h
  · simp only [Prod.mk.injEq, true_and] at h
    exact ⟨h.symm, .inl (List.getElem?_eq_none_iff.mp hslot)⟩
  · split at h
    next hw =>
      simp only [Prod.mk.injEq, true_and] at h
      exact ⟨h.symm, .inr (.inr hw)⟩
    next => simp at h
  · simp only [Prod.mk.injEq, true_and] at h
    exact ⟨h.symm, .inr (.inl (by simp [Slice.payload, hslot]))⟩

/-- A slot taken is held from then on; nothing else changes. -/
theorem Slice.payload_insert (h : s.insert slot parityWidth payload = (true, s')) (i : ℕ) :
    s'.payload i = if i = slot then some payload else s.payload i := by
  obtain ⟨hfree, _, rfl⟩ := insert_eq_true h
  have hlt := (List.getElem?_eq_some_iff.mp hfree).1
  unfold Slice.payload
  by_cases hi : i = slot
  · subst hi
    simp [hlt]
  · simp [hi, List.getElem?_set_ne (Ne.symm hi)]

theorem countP_set_isSome {xs : List (Option Bytes)} {i : ℕ} (p : Bytes)
    (h : xs[i]? = some none) :
    (xs.set i (some p)).countP (·.isSome) = xs.countP (·.isSome) + 1 := by
  have hlt := (List.getElem?_eq_some_iff.mp h).1
  have hget : xs[i] = none := (List.getElem?_eq_some_iff.mp h).2
  rw [List.countP_set hlt, hget]
  simp

/-- A checked shard keeps a slice well formed. -/
theorem Slice.Wf.insert (hs : s.Wf g) {taken : Bool}
    (h : s.insert slot parityWidth payload = (taken, s'))
    (hsize : payload.length = g.blockSize) (hwidth : parityWidth ≤ g.parityPerSlice)
    (hparity : g.blocksPerSlice ≤ slot → slot - g.blocksPerSlice < parityWidth) : s'.Wf g := by
  cases taken with
  | false => exact (insert_eq_false h).1 ▸ hs
  | true =>
    have hpay := payload_insert h
    obtain ⟨hfree, hsame, rfl⟩ := insert_eq_true h
    refine ⟨by simpa using hs.length, ?_, ?_, ?_, ?_⟩
    · simpa [hs.received] using (countP_set_isSome payload hfree).symm
    · intro i p hp
      rw [hpay] at hp
      split_ifs at hp with hi
      · simp only [Option.some.injEq] at hp
        exact hp ▸ hsize
      · exact hs.size i p hp
    · simp only
      split_ifs
      · exact hwidth
      · exact hs.width
    · intro i p hp hle
      rw [hpay] at hp
      simp only
      split_ifs at hp with hi
      · subst hi
        have := hparity hle
        rw [if_pos (by omega)]
        exact this
      · have hold := hs.parity i p hp hle
        split_ifs with hpos
        · rw [← hsame hpos (by omega)]
          exact hold
        · exact hold

end Insert

section Decode

variable {g : Geometry} {target : ℕ}

/-- The original shard the decoder is given at index `i` out of a list of slots that starts at
slot `n`: what is held, and zeros from the target on. -/
def given (g : Geometry) (target : ℕ) (slots : List (Option Bytes)) (n i : ℕ) : Option Bytes :=
  if i < g.blocksPerSlice then
    match slots[i - n]? with
    | some (some payload) => some payload
    | some none => if target ≤ i then some (List.replicate g.blockSize 0) else none
    | none => none
  else none

/-- What is given for the first slots, and then for the rest. -/
theorem given_cons (target : ℕ) (held : Option Bytes) (slots : List (Option Bytes)) (n : ℕ)
    (original : ℕ → Option Bytes) :
    (fun i => if n + 1 ≤ i then given g target slots (n + 1) i
      else if i = n then given g target [held] n n else original i) =
      fun i => if n ≤ i then given g target (held :: slots) n i else original i := by
  funext i
  rcases Nat.lt_trichotomy i n with hi | hi | hi
  · simp [Nat.not_le.mpr hi, Nat.not_le.mpr (Nat.lt_succ_of_lt hi), Nat.ne_of_lt hi]
  · subst hi
    simp [given]
  · have hsub : i - n = i - (n + 1) + 1 := by omega
    simp [Nat.le_of_lt hi, Nat.succ_le_of_lt hi, given, hsub]

/-- The same of the parity, that starts `b` slots on. -/
theorem recovery_cons (held : Option Bytes) (slots : List (Option Bytes)) (n b : ℕ)
    (recovery : ℕ → Option Bytes) :
    (fun j => if n + 1 ≤ b + j then (slots[b + j - (n + 1)]?).join
      else if b + j = n then held else recovery j) =
      fun j => if n ≤ b + j then ((held :: slots)[b + j - n]?).join else recovery j := by
  funext j
  rcases Nat.lt_trichotomy (b + j) n with hj | hj | hj
  · simp [Nat.not_le.mpr hj, Nat.not_le.mpr (Nat.lt_succ_of_lt hj), Nat.ne_of_lt hj]
  · simp [hj]
  · have hsub : b + j - n = b + j - (n + 1) + 1 := by omega
    simp [Nat.le_of_lt hj, Nat.succ_le_of_lt hj, hsub]

/-- Below the target nothing is made up. -/
theorem given_of_lt (slots : List (Option Bytes)) {i : ℕ} (hi : i < target)
    (ht : target ≤ g.blocksPerSlice) : given g target slots 0 i = slots[i]?.join := by
  have hlt : i < g.blocksPerSlice := by omega
  have hnot : ¬ target ≤ i := by omega
  simp only [given, hlt, if_true, Nat.sub_zero]
  rcases slots[i]? with _ | _ | p <;> simp [hnot]

/-- One slot goes into a decoder that has nothing for it yet. -/
theorem addSlot_eq_ok (target : ℕ) (held : Option Bytes) {d : Decoder} {n : ℕ}
    (hcount : d.originalCount = g.blocksPerSlice) (hbytes : d.shardBytes = g.blockSize)
    (hsize : ∀ p ∈ held, p.length = g.blockSize)
    (hparity : ∀ p ∈ held, g.blocksPerSlice ≤ n → n - g.blocksPerSlice < d.recoveryCount)
    (ho : d.original n = none)
    (hr : g.blocksPerSlice ≤ n → d.recovery (n - g.blocksPerSlice) = none) :
    addSlot g target d n held = .ok { d with
      original := fun i => if i = n then given g target [held] n n else d.original i
      recovery := fun j => if g.blocksPerSlice + j = n then held else d.recovery j } := by
  have hsame (x : Option Bytes) (hx : x = none) :
      (fun i => if i = n then x else d.original i) = d.original := by
    funext i
    split_ifs with hi
    · rw [hx, hi, ho]
    · rfl
  have hset (x : Option Bytes) :
      (fun i => if i = n then x else d.original i) = Function.update d.original n x := by
    funext i
    simp [Function.update_apply]
  have hrec (hne : held = none ∨ n < g.blocksPerSlice) :
      (fun j => if g.blocksPerSlice + j = n then held else d.recovery j) = d.recovery := by
    funext j
    split_ifs with hj
    · rw [hne.resolve_right (by omega), ← hr (by omega)]
      congr 1
      omega
    · rfl
  rcases held with _ | p
  · rw [hrec (.inl rfl)]
    by_cases hin : target ≤ n ∧ n < g.blocksPerSlice
    · have hgiven : given g target [none] n n = some (List.replicate g.blockSize 0) := by
        simp [given, hin]
      rw [hgiven, hset]
      simp [addSlot, hin, Decoder.addOriginalShard, hcount, hbytes, ho]
    · have hgiven : given g target [none] n n = none := by
        simp only [given, Nat.sub_self, List.getElem?_cons_zero]
        split_ifs <;> first | rfl | omega
      rw [hsame _ hgiven]
      simp [addSlot, hin]
  · by_cases hlt : n < g.blocksPerSlice
    · have hgiven : given g target [some p] n n = some p := by simp [given, hlt]
      rw [hrec (.inr hlt), hgiven, hset]
      simp [addSlot, hlt, Decoder.addOriginalShard, hcount, hbytes, ho, hsize p rfl]
    · have hle : g.blocksPerSlice ≤ n := Nat.le_of_not_lt hlt
      have hgiven : given g target [some p] n n = none := by simp [given, hlt]
      have hupd : (fun j => if g.blocksPerSlice + j = n then some p else d.recovery j) =
          Function.update d.recovery (n - g.blocksPerSlice) (some p) := by
        funext j
        rw [Function.update_apply]
        congr 1
        exact propext (by omega)
      rw [hsame _ hgiven, hupd]
      simp [addSlot, hlt, Decoder.addRecoveryShard, hr hle, hbytes, hsize p rfl,
        hparity p rfl hle]

/-- The whole loop of `recover`: the decoder ends up with every shard of the slots. -/
theorem foldlM_addSlot (message : String) (target : ℕ) (slots : List (Option Bytes)) {n : ℕ}
    {d : Decoder}
    (hcount : d.originalCount = g.blocksPerSlice) (hbytes : d.shardBytes = g.blockSize)
    (hsize : ∀ (i : ℕ) (p : Bytes), slots[i]? = some (some p) → p.length = g.blockSize)
    (hparity : ∀ (i : ℕ) (p : Bytes), slots[i]? = some (some p) → g.blocksPerSlice ≤ n + i →
      n + i - g.blocksPerSlice < d.recoveryCount)
    (ho : ∀ i, n ≤ i → d.original i = none)
    (hr : ∀ j, n ≤ g.blocksPerSlice + j → d.recovery j = none) :
    (slots.zipIdx n).foldlM (fun codec (held, slot) =>
        expectOk message (addSlot g target codec slot held)) d = .ok { d with
      original := fun i => if n ≤ i then given g target slots n i else d.original i
      recovery := fun j => if n ≤ g.blocksPerSlice + j
        then (slots[g.blocksPerSlice + j - n]?).join else d.recovery j } := by
  induction slots generalizing n d with
  | nil =>
    have h1 : (fun i => if n ≤ i then given g target [] n i else d.original i) = d.original := by
      funext i
      split_ifs with hi
      · rw [ho i hi]
        simp [given]
      · rfl
    have h2 : (fun j => if n ≤ g.blocksPerSlice + j
        then (([] : List (Option Bytes))[g.blocksPerSlice + j - n]?).join else d.recovery j) =
        d.recovery := by
      funext j
      split_ifs with hj
      · rw [hr j hj]
        rfl
      · rfl
    rw [h1, h2]
    rfl
  | cons held slots ih =>
    have hstep := addSlot_eq_ok target held hcount hbytes
      (fun p hp => hsize 0 p (by simpa using hp))
      (fun p hp hle => by simpa using hparity 0 p (by simpa using hp) (by simpa using hle))
      (ho n le_rfl) (fun hle => hr _ (by omega))
    rw [List.zipIdx_cons, List.foldlM_cons]
    simp only [hstep, expectOk_ok, ok_bind]
    rw [ih (by exact hcount) (by exact hbytes)]
    · rw [given_cons, recovery_cons]
    · intro i p hp
      exact hsize (i + 1) p (by simpa using hp)
    · intro i p hp hle
      have := hparity (i + 1) p (by simpa using hp) (by omega)
      simp only
      omega
    · intro i hi
      simp only
      rw [if_neg (by omega), ho i (by omega)]
    · intro j hj
      simp only
      rw [if_neg (by omega), hr j (by omega)]

theorem held_succ {α : Type*} (f : ℕ → Option α) (n : ℕ) :
    held f (n + 1) = held f n + if (f n).isSome then 1 else 0 := by
  simp [held, List.range_succ, List.countP_append, List.countP_singleton]

theorem held_congr {α : Type*} {f f' : ℕ → Option α} {n : ℕ} (h : ∀ i < n, f i = f' i) :
    held f n = held f' n := by
  unfold held
  apply List.countP_congr
  intro i hi
  rw [h i (List.mem_range.mp hi)]

theorem held_slots (slots : List (Option Bytes)) (n : ℕ) :
    held (fun i => slots[i]?.join) n = (slots.take n).countP (·.isSome) := by
  induction n with
  | zero => rfl
  | succ n ih =>
    rw [held_succ, ih, List.take_add_one, List.countP_append]
    rcases slots[n]? with _ | _ | p <;> simp

/-- Past the target every original is given, so what is missing is missing below it. -/
theorem held_given (slots : List (Option Bytes)) (ht : target ≤ g.blocksPerSlice)
    (hlen : g.blocksPerSlice ≤ slots.length) {m : ℕ} (hm : target + m ≤ g.blocksPerSlice) :
    held (given g target slots 0) (target + m) =
      (slots.take target).countP (·.isSome) + m := by
  induction m with
  | zero =>
    rw [Nat.add_zero, ← held_slots]
    exact held_congr fun i hi => given_of_lt slots hi ht
  | succ m ih =>
    have hlt : target + m < g.blocksPerSlice := by omega
    rw [← Nat.add_assoc, held_succ, ih (by omega), if_pos]
    · omega
    · have hget : slots[target + m]? = some (slots[target + m]) :=
        List.getElem?_eq_getElem _
      simp only [given, hlt, if_true, Nat.sub_zero, hget]
      cases slots[target + m] <;> simp

/-- What the decoder is given of the data: what is held below the target, and all above it. -/
theorem Slice.Wf.held_originals {s : Slice} (hs : s.Wf g) (ht : target ≤ g.blocksPerSlice) :
    held (given g target s.slots 0) g.blocksPerSlice =
      s.below target + (g.blocksPerSlice - target) := by
  have hlen := hs.length
  have hheld := held_given (g := g) s.slots ht (by omega)
    (m := g.blocksPerSlice - target) (by omega)
  rwa [Nat.add_sub_cancel' ht] at hheld

/-- Slots of which none is filled. -/
theorem countP_isSome_eq_zero {slots : List (Option Bytes)}
    (h : ∀ (j : ℕ) p, slots[j]? ≠ some (some p)) : slots.countP (·.isSome) = 0 := by
  rw [List.countP_eq_zero]
  intro x hx hsome
  obtain ⟨p, rfl⟩ := Option.isSome_iff_exists.mp hsome
  obtain ⟨j, hj⟩ := List.mem_iff_getElem?.mp hx
  exact h j p hj

/-- Every parity shard held lies inside the slice's width. -/
theorem Slice.Wf.held_parity {s : Slice} (hs : s.Wf g) :
    held (fun j => s.payload (g.blocksPerSlice + j)) s.parityWidth = s.above g.blocksPerSlice := by
  have hshift : (fun j => s.payload (g.blocksPerSlice + j)) =
      fun j => (s.slots.drop g.blocksPerSlice)[j]?.join := by
    funext j
    simp [Slice.payload]
  rw [hshift, held_slots, Slice.above]
  conv_rhs =>
    rw [← List.take_append_drop s.parityWidth (s.slots.drop g.blocksPerSlice), List.countP_append]
  have hzero : ((s.slots.drop g.blocksPerSlice).drop s.parityWidth).countP (·.isSome) = 0 := by
    refine countP_isSome_eq_zero fun j p hj => ?_
    rw [List.getElem?_drop, List.getElem?_drop] at hj
    have := hs.parity _ p (Slice.payload_eq_some.mpr hj) (by omega)
    omega
  omega

theorem mapM_expectSome {α : Type} (message : String) (xs : List α) :
    (xs.map some).mapM (expectSome message) = .ok xs := by
  induction xs with
  | nil => rfl
  | cons x xs ih => simp [List.mapM_cons, ih, pure, Except.pure]

/-- The codec at hand is a fresh one of the width it is filed under. -/
def CodecOk (a : Assembler) : Prop :=
  ∀ d ∈ a.codec, Supported a.geometry.blocksPerSlice a.codecWidth a.geometry.blockSize ∧
    d = .fresh a.geometry.blocksPerSlice a.codecWidth a.geometry.blockSize

/-- The assembler with a fresh codec of the given width. -/
def withCodec (a : Assembler) (width : ℕ) : Assembler :=
  { a with codec := some (.fresh a.geometry.blocksPerSlice width a.geometry.blockSize)
           codecWidth := width }

theorem decoderFor_eq {a : Assembler} (hc : a.CodecOk) (width : ℕ) :
    a.decoderFor width =
      if Supported a.geometry.blocksPerSlice width a.geometry.blockSize then
        .ok (.fresh a.geometry.blocksPerSlice width a.geometry.blockSize, a.withCodec width)
      else .error (.expect "the widest parity the transfer allows built a decoder") := by
  unfold decoderFor
  by_cases hnew : a.codec.isNone ∨ a.codecWidth ≠ width
  · rw [if_pos hnew]
    split_ifs with hsup
    · simp [Decoder.new_eq_ok hsup, Except.toOption, withCodec]
    · have : (Decoder.new a.geometry.blocksPerSlice width a.geometry.blockSize).toOption = none := by
        rcases hd : Decoder.new a.geometry.blocksPerSlice width a.geometry.blockSize with e | d
        · rfl
        · exact absurd (Decoder.new_eq_ok_iff.mp hd).1 hsup
      simp [this, Bind.bind, Except.bind]
  · rw [if_neg hnew]
    obtain ⟨hsome, hw⟩ := not_or.mp hnew
    obtain ⟨d, hd⟩ := Option.ne_none_iff_exists'.mp (by simpa using hsome)
    obtain rfl : a.codecWidth = width := by simpa using hw
    obtain ⟨hsup, rfl⟩ := hc d hd
    rw [if_pos hsup, withCodec]
    simp only [hd, expectSome_some, ok_bind]
    rw [← hd]

/-- Overlaying what was restored on the first slots, where whatever is not held was restored. -/
theorem recovered_eq (slots : List (Option Bytes)) (target : ℕ) (decoded : ℕ → Option Bytes)
    (restored : ℕ → Bytes) (hlen : target ≤ slots.length)
    (h : ∀ i < target, (decoded i).or (slots[i]?.join) =
      some ((slots[i]?.join).getD (restored i))) :
    (slots.take target).zipIdx.map (fun x => (decoded x.2).or x.1) =
      ((List.range target).map fun i => (slots[i]?.join).getD (restored i)).map some := by
  apply List.ext_getElem?
  intro i
  simp only [List.getElem?_map, List.getElem?_zipIdx, List.getElem?_take, Nat.zero_add]
  by_cases hi : i < target
  · have hget : slots[i]? = some (slots[i]) := List.getElem?_eq_getElem _
    have hi' := h i hi
    simp only [hget, Option.join_some] at hi'
    simp [hi, hget, hi']
  · simp [hi]

/-- Recovery touches the codec only. -/
theorem recover_frame {rs : ReedSolomon} {a a' : Assembler} {s : Slice} {target : ℕ}
    {blocks : List Bytes} (h : recover rs a s target = .ok (blocks, a')) :
    ∃ codec width, a' = { a with codec := codec, codecWidth := width } := by
  unfold recover at h
  split at h
  · simp only [Except.ok.injEq, Prod.mk.injEq] at h
    exact ⟨a.codec, a.codecWidth, h.2.symm⟩
  · simp only [bind_ok_iff] at h
    obtain ⟨⟨codec, a₁⟩, hfor, _, _, ⟨_, codec'⟩, _, _, _, heq⟩ := h
    unfold decoderFor at hfor
    simp only [bind_ok_iff] at hfor
    obtain ⟨_, _, heq₁⟩ := hfor
    simp only [Except.ok.injEq, Prod.mk.injEq] at heq heq₁
    obtain ⟨rfl, rfl⟩ := heq
    obtain ⟨rfl, rfl⟩ := heq₁
    split <;> exact ⟨_, _, rfl⟩

/-- What `recover` does with a well-formed slice: the data as it is when all of it is present,
else a decode, which needs a codec of the slice's width and `target` shards among the data below
the target and the parity. -/
theorem recover_eq (rs : ReedSolomon) {a : Assembler} {s : Slice} {target : ℕ} (hc : a.CodecOk)
    (hs : s.Wf a.geometry) (ht : target ≤ a.geometry.blocksPerSlice) :
    recover rs a s target =
      if s.dataPresent target then .ok ((s.slots.take target).filterMap id, a)
      else if ¬ Supported a.geometry.blocksPerSlice s.parityWidth a.geometry.blockSize then
        .error (.expect "the widest parity the transfer allows built a decoder")
      else if s.below target + s.above a.geometry.blocksPerSlice < target then
        .error (.expect "target shards present guarantees the data recovers")
      else
        .ok ((List.range target).map fun i => (s.payload i).getD
            (rs.restored a.geometry.blocksPerSlice s.parityWidth
              (given a.geometry target s.slots 0)
              (fun j => s.payload (a.geometry.blocksPerSlice + j)) i),
          a.withCodec s.parityWidth) := by
  have hlen := hs.length
  unfold recover
  by_cases hp : s.dataPresent target
  · simp [hp]
  rw [if_neg hp, if_neg hp, decoderFor_eq hc]
  by_cases hsup : Supported a.geometry.blocksPerSlice s.parityWidth a.geometry.blockSize
  swap
  · simp [hsup, Bind.bind, Except.bind]
  have hloop := foldlM_addSlot "every shard addresses a slot of this slice exactly once" target s.slots
    (n := 0) (d := .fresh a.geometry.blocksPerSlice s.parityWidth a.geometry.blockSize)
    (g := a.geometry) rfl rfl
    (fun i p hi => hs.size i p (Slice.payload_eq_some.mpr hi))
    (fun i p hi hle => by
      simpa [Decoder.fresh] using hs.parity i p (Slice.payload_eq_some.mpr hi) (by simpa using hle))
    (fun _ _ => rfl) (fun _ _ => rfl)
  simp only [hsup, if_true, ok_bind, not_true_eq_false, if_false]
  simp only [Nat.zero_le, if_true, Nat.sub_zero] at hloop
  have hgeo : (a.withCodec s.parityWidth).geometry = a.geometry := rfl
  have horig := hs.held_originals ht
  rw [hgeo, hloop, ok_bind]
  by_cases hshort : s.below target + s.above a.geometry.blocksPerSlice < target
  · rw [if_pos hshort, Decoder.decode_of_few]
    · rfl
    · change held (given a.geometry target s.slots 0) a.geometry.blocksPerSlice +
        held (fun j => s.payload (a.geometry.blocksPerSlice + j)) s.parityWidth <
          a.geometry.blocksPerSlice
      rw [horig, hs.held_parity]
      omega
  rw [if_neg hshort, Decoder.decode_of_enough]
  swap
  · change a.geometry.blocksPerSlice ≤
      held (given a.geometry target s.slots 0) a.geometry.blocksPerSlice +
        held (fun j => s.payload (a.geometry.blocksPerSlice + j)) s.parityWidth
    rw [horig, hs.held_parity]
    omega
  have hmap := recovered_eq s.slots target
    (fun i =>
      if i < a.geometry.blocksPerSlice ∧ given a.geometry target s.slots 0 i = none then
        some (rs.restored a.geometry.blocksPerSlice s.parityWidth
          (given a.geometry target s.slots 0)
          (fun j => s.payload (a.geometry.blocksPerSlice + j)) i)
      else none)
    (rs.restored a.geometry.blocksPerSlice s.parityWidth
      (given a.geometry target s.slots 0) fun j => s.payload (a.geometry.blocksPerSlice + j))
    (by omega) (fun i hi => by
      rw [given_of_lt s.slots hi ht]
      cases s.slots[i]?.join <;> simp [hi.trans_le ht])
  refine (congrArg (fun recovered => recovered.mapM
    (expectSome "every data shard of the slice recovered") >>= fun blocks =>
      Except.ok (blocks, a.withCodec s.parityWidth)) hmap).trans ?_
  simp only [mapM_expectSome, ok_bind, Slice.payload]

theorem recover_codec {rs : ReedSolomon} {a a' : Assembler} {s : Slice} {target : ℕ}
    {blocks : List Bytes} (hc : a.CodecOk) (hs : s.Wf a.geometry)
    (ht : target ≤ a.geometry.blocksPerSlice)
    (h : recover rs a s target = .ok (blocks, a')) : a'.CodecOk := by
  rw [recover_eq rs hc hs ht] at h
  split_ifs at h with hp hsup hshort
  · simp only [Except.ok.injEq, Prod.mk.injEq] at h
    exact h.2 ▸ hc
  · simp only [Except.ok.injEq, Prod.mk.injEq] at h
    obtain ⟨_, rfl⟩ := h
    intro d hd
    simp only [withCodec, Option.mem_def, Option.some.injEq] at hd
    exact ⟨hsup, hd.symm⟩

theorem target_le (a : Assembler) (sliceNo : ℕ) :
    a.target sliceNo ≤ a.geometry.blocksPerSlice := by
  unfold target
  split
  · exact le_rfl
  · dsimp only
    split_ifs <;> omega

/-- A slice of an accepted transfer is recovered exactly when the data held below the target and
the parity held reach it. -/
theorem recover_ok_iff (rs : ReedSolomon) {a : Assembler} {s : Slice} {target : ℕ}
    (hc : a.CodecOk) (ha : a.geometry.Accepted) (hs : s.Wf a.geometry)
    (ht : target ≤ a.geometry.blocksPerSlice) :
    (∃ r, recover rs a s target = .ok r) ↔
      target ≤ s.below target + s.above a.geometry.blocksPerSlice := by
  have hlen := hs.length
  rw [recover_eq rs hc hs ht]
  by_cases hp : s.dataPresent target
  · have := (Slice.dataPresent_iff_below (by omega)).mp hp
    simp [hp, this]
  have hbelow : s.below target < target := by
    have hne : s.below target ≠ target := fun h =>
      hp ((Slice.dataPresent_iff_below (by omega)).mpr h)
    have := s.below_le target
    omega
  rw [if_neg hp]
  by_cases henough : target ≤ s.below target + s.above a.geometry.blocksPerSlice
  · have hwidth : 0 < s.parityWidth := by
      by_contra hzero
      have := hs.held_parity
      rw [Nat.eq_zero_of_not_pos hzero] at this
      simp only [held, List.range_zero, List.countP_nil] at this
      omega
    rw [if_neg (not_not.mpr (ha.supported hwidth hs.width)), if_neg (Nat.not_lt.mpr henough)]
    simp [henough]
  · simp only [henough, iff_false, not_exists]
    intro r hr
    rw [if_pos (Nat.not_le.mp henough)] at hr
    split_ifs at hr

end Decode

end Assembler
end Scuttlecast
