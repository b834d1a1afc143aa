import Scuttlecast.SendStream

/-! What the link carries. The bytes of shards that any stretch of a transfer puts on the wire are
bounded by one burst and the time that passes, at the configured maximum or the initial rate. -/
namespace Scuttlecast

/-- Bytes of shards. -/
def Sent.load : Sent → ℕ
  | .batch body _ => body.length
  | .control _ => 0

def load (sent : List Sent) : ℕ := (sent.map Sent.load).sum

theorem load_append (sent sent' : List Sent) : load (sent ++ sent') = load sent + load sent' := by
  simp [load]

def Incoming.IsShard : Incoming → Bool
  | .shard _ => true
  | .control _ => false

/-- The bytes of a buffer are those of its frames, each no longer than a segment. -/
theorem Sent.Reaches.load_le {c : Config} {sent : Sent} {incoming : List Incoming}
    (h : sent.Reaches c incoming) :
    sent.load ≤ (headerSize + c.geometry.blockSize) * incoming.countP Incoming.IsShard := by
  cases sent with
  | control message => exact Nat.zero_le _
  | batch body segmentSize =>
    obtain ⟨rfl, frames, rfl, hbody, hread⟩ := h
    have hcount : (frames.map Incoming.shard).countP Incoming.IsShard = frames.length := by
      rw [List.countP_map]
      exact List.countP_eq_length.mpr fun _ _ => rfl
    have hsmall : ∀ frame ∈ frames, frame.bytes.length ≤ headerSize + c.geometry.blockSize := by
      intro frame hframe
      have hne : body ≠ [] := by
        rintro rfl
        rw [Listener.readOne_nil] at hread
        cases hread
      have hstride : ∀ s ∈ some (headerSize + c.geometry.blockSize), 0 < s := by
        rintro s ⟨rfl⟩
        exact Nat.add_pos_right _ c.geometry.blockSize_pos
      obtain ⟨reading, hreading, hprefix, -⟩ := @Listener.readOne_handed c.listener body
        (some (headerSize + c.geometry.blockSize)) [] hne hstride
      cases hread.symm.trans hreading
      have hmem := hprefix.subset (List.mem_map_of_mem hframe)
      exact (Chunks.length_le_of_mem hmem).trans (min_le_left _ _)
    have hbound : (frames.map fun frame => frame.bytes.length).sum ≤
        (frames.map fun frame => frame.bytes.length).length •
          (headerSize + c.geometry.blockSize) := by
      apply List.sum_le_card_nsmul
      intro n hn
      obtain ⟨frame, hframe, rfl⟩ := List.mem_map.mp hn
      exact hsmall frame hframe
    rw [List.length_map, smul_eq_mul, mul_comm] at hbound
    rw [load, hbody, List.length_flatMap, hcount]
    exact hbound

theorem Delivered.load_le {c : Config} {sent : List Sent} {incoming : List Incoming}
    (h : Delivered c sent incoming) :
    load sent ≤ (headerSize + c.geometry.blockSize) * incoming.countP Incoming.IsShard := by
  obtain ⟨parts, hparts, rfl⟩ := h
  induction hparts with
  | nil => exact Nat.zero_le _
  | @cons first incoming sent parts hreach _ ih =>
    rw [List.flatten_cons, List.countP_append, Nat.mul_add]
    exact Nat.add_le_add hreach.load_le ih

/-- The shards it takes off the queue. -/
def Round.shards (r : Round) : ℕ :=
  match r.select with
  | .taken _ queued _ => queued.countP fun message => message.IsShard
  | _ => 0

namespace Pacing

variable {s s' : Pacing} {t : Turn} {ceiling : ℚ}

/-- Growth stops at the maximum, and backing off ends no higher than it began, or at the floor. -/
theorem rate_le_of_tick {c c' : RateController} {now : ℕ} {rateLimited : Bool}
    (hceiling : c.ceiling = some ceiling) (hpos : 0 < c.rate)
    (hrate : c.rate ≤ max initialRate ceiling) (htick : c.tick now rateLimited = .ok c') :
    c'.rate ≤ max initialRate ceiling := by
  unfold RateController.tick at htick
  split at htick
  next => cases htick; exact hrate
  next worst hworst =>
    split_ifs at htick
    · cases htick
      unfold RateController.backOff
      split_ifs
      · refine max_le ?_ (le_max_of_le_left (by norm_num))
        exact (mul_le_of_le_one_right hpos.le (RateController.reductionFactor_le_one worst)).trans hrate
      · exact hrate
    · obtain ⟨goodTicks, -, htick⟩ := bind_ok_iff.mp htick
      dsimp only at htick
      split_ifs at htick
      · cases htick
        simp only [hceiling]
        exact le_max_of_le_right (min_le_right _ _)
      · cases htick; exact hrate
    · cases htick; exact hrate

theorem rate_le_of_reachable (hpos : 0 < ceiling)
    (h : Labelled.Reachable (loop (some ceiling)) s) : s.controller.rate ≤ max initialRate ceiling := by
  have hmax : ∀ c ∈ some ceiling, 0 < c := by simpa using hpos
  have hboth : s.controller.rate ≤ max initialRate ceiling ∧ s.controller.ceiling = some ceiling := by
    refine Labelled.Reach.invariant_on
      (I := fun s => s.controller.rate ≤ max initialRate ceiling ∧
        s.controller.ceiling = some ceiling)
      (J := fun s => 0 < s.controller.rate) (fun s => rate_pos_of_reachable hmax) ?_ ?_ h
    · rintro s ⟨now, drainLimit, rfl⟩
      exact ⟨le_max_left _ _, rfl⟩
    · intro t s s' _ hrate _ ⟨hle, hceiling⟩ hn
      obtain ⟨-, hturn⟩ := next_loop.mp hn
      rcases controller_turn hturn with ⟨hsame, heq⟩ | ⟨now, starved, htick⟩
      · rw [hsame, heq]
        exact ⟨hle, hceiling⟩
      · obtain ⟨-, heq⟩ := rate_pos_of_tick (hceiling ▸ hmax) hrate htick
        exact ⟨rate_le_of_tick hceiling hrate hle htick, heq.trans hceiling⟩
  exact hboth.1

theorem lastRefill_turn (hturn : s.turn t = .ok s') : s'.pacer.lastRefill = seconds t.top := by
  have hconsume (p : Pacer) (n : ℕ) : (Pacer.consume^[n] p).lastRefill = p.lastRefill := by
    induction n with
    | zero => rfl
    | succ n ih => rw [Function.iterate_succ_apply', Pacer.consume, ih]
  unfold turn at hturn
  obtain ⟨_, -, hturn⟩ := bind_ok_iff.mp hturn
  split at hturn
  · cases hturn
    rw [hconsume]
    split_ifs <;> rfl
  · cases hturn
    dsimp only
    split_ifs <;> rfl
  · obtain ⟨controller, -, hturn⟩ := bind_ok_iff.mp hturn
    cases hturn
    rfl
  · cases hturn
    rfl
  · cases hturn
    rfl

theorem credit_nonneg_of_reachable (hpos : 0 < ceiling)
    (h : Labelled.Reachable (loop (some ceiling)) s) : 0 ≤ s.pacer.credit := by
  have hstay : Labelled.exec (loop (some ceiling)) [] s = some s := rfl
  exact (shards_sent_le (by simpa using hpos) h hstay).1

/-- What a turn puts on the link comes out of the credit that its refill leaves. -/
theorem shards_add_credit (hturn : s.turn t = .ok s') :
    t.branch.shards + s'.pacer.credit = (s.refilled t.top).credit := by
  rw [credit_turn hturn, add_sub_cancel]

/-- That is the credit before, and what was earned since the last refill. -/
theorem shards_add_credit_le {rate : ℚ} (hrate : s.controller.rate ≤ rate)
    (hclock : s.pacer.lastRefill ≤ seconds t.top) (hturn : s.turn t = .ok s') :
    t.branch.shards + s'.pacer.credit ≤
      s.pacer.credit + rate * (s'.pacer.lastRefill - s.pacer.lastRefill) := by
  have helapsed : max (seconds t.top - s.pacer.lastRefill) 0 = seconds t.top - s.pacer.lastRefill :=
    max_eq_left (sub_nonneg.mpr hclock)
  rw [shards_add_credit hturn, lastRefill_turn hturn]
  refine (min_le_left _ _).trans (add_le_add_right ?_ _)
  rw [helapsed, mul_comm]
  exact mul_le_mul_of_nonneg_right hrate (sub_nonneg.mpr hclock)

/-- And it is never more than one burst. -/
theorem shards_add_credit_le_burstCap {rate : ℚ} (hrate : s.controller.rate ≤ rate)
    (hturn : s.turn t = .ok s') : t.branch.shards + s'.pacer.credit ≤ burstCap rate := by
  rw [shards_add_credit hturn]
  exact (min_le_right _ _).trans (Pacer.burstCap_mono hrate)

end Pacing

namespace SendStream

variable {sender : Sender} {gathered : List Message} {s s' : SendStream} {r : Round}

theorem load_controls (multicast : List Incoming) : load (controls multicast) = 0 := by
  induction multicast with
  | nil => rfl
  | cons i multicast ih =>
    cases i
    · exact ih
    · exact (Nat.zero_add _).trans ih

/-- Messages off the queue come to as many shards as there are among them. -/
theorem countP_egressAll (loop : SendLoop) (now : ℕ) (queued : List Outbound) :
    (loop.egressAll (queued.map fun message => (now, message))).2.countP Incoming.IsShard =
      queued.countP fun message => message.IsShard := by
  induction queued generalizing loop with
  | nil => rfl
  | cons message queued ih =>
    rw [List.map_cons, SendLoop.egressAll]
    dsimp only
    rw [List.countP_append, ih, List.countP_cons]
    cases message
    · exact Nat.add_comm 1 _
    · exact Nat.zero_add _

theorem shards_paced (s : SendStream) (r : Round) : (s.paced r).branch.shards = r.shards := by
  rcases r with ⟨top, now, select⟩
  cases select with
  | control alpha message =>
    simp only [paced, pace]
    split <;> rfl
  | _ => rfl

theorem sent_settle (s : SendStream) (now : ℕ) : (s.settle now).egress.sent = s.egress.sent := by
  rw [egress_settle]

/-- A round puts no more on the wire than its shards, each with its header. -/
theorem load_next {events : List (SendLoop.Event × ℕ)} {turns : List Pacing.Turn}
    {s₀ : SendStream} (h : Tracks sender gathered s₀ s events turns)
    (hconfig : s.egress.loop.config = sender.config) (htyped : r.Typed sender.config.geometry)
    (hturn : s.turn sender r = .ok s') : load s'.egress.sent ≤
      load s.egress.sent + (headerSize + sender.config.geometry.blockSize) * r.shards := by
  obtain ⟨pacing, -, hturn⟩ := bind_ok_iff.mp hturn
  obtain ⟨s₁, hbranch, hturn⟩ := bind_ok_iff.mp hturn
  cases hturn
  rw [sent_settle]
  have hfollow (s : SendStream) (o : LoopOutcome) :
      load (s.follow o).egress.sent = load s.egress.sent := by
    rw [follow, load_append, load_controls, Nat.add_zero]
  rcases r with ⟨top, now, select⟩
  cases select with
  | taken waited queued left =>
    obtain ⟨egress, hegress, htake⟩ := bind_ok_iff.mp hbranch
    cases htake
    obtain ⟨egress', hegress', hsim⟩ := h.staged.turn now (hconfig ▸ htyped)
    cases hegress.symm.trans hegress'
    obtain ⟨newly, arrived, hsent, hdelivered, harrived⟩ := hsim.delivered
    simp only [List.map_nil, List.append_nil, List.nil_append] at harrived
    have hload := hdelivered.load_le
    rw [harrived, countP_egressAll, hconfig] at hload
    dsimp only
    rw [hsent, load_append]
    exact Nat.add_le_add_left hload _
  | tick =>
    obtain ⟨shown, -, htick⟩ := bind_ok_iff.mp hbranch
    obtain ⟨batching, -, htick⟩ := bind_ok_iff.mp htick
    cases htick
    exact (hfollow _ _).le
  | credit left =>
    cases hbranch
    exact le_rfl
  | _ =>
    cases hbranch
    exact (hfollow _ _).le

/-- The pacing goes through its own turn of a round, and what the round puts on the wire is no more
than the shards of that turn. -/
theorem Tracks.paced_next {ceiling : ℚ} (hceiling : sender.maxRate = some ceiling) (hpos : 0 < ceiling)
    {s₀ : SendStream} (hinit : (rounds sender gathered).init s₀)
    {events : List (SendLoop.Event × ℕ)} {turns : List Pacing.Turn}
    (h : Tracks sender gathered s₀ s events turns) (htyped : r.Typed sender.config.geometry)
    (hnext : (rounds sender gathered).next r s = some s') :
    Tracks sender gathered s₀ s' (events ++ s.events sender r) (turns ++ [s.paced r]) ∧
      s.pacing.turn (s.paced r) = .ok s'.pacing ∧
      s.pacing.controller.rate ≤ max initialRate ceiling ∧
      (load s'.egress.sent : ℚ) ≤ load s.egress.sent +
        (headerSize + sender.config.geometry.blockSize) * (s.paced r).branch.shards := by
  obtain ⟨hattends, hconcluded⟩ := h.attends hinit
  have hconfig := hattends.shape
  have h' := h.next hconfig hconcluded htyped hnext
  have hpaced : (Pacing.loop sender.maxRate).next (s.paced r) s.pacing = some s'.pacing :=
    (Labelled.exec_concat_of_eq h.pacing).symm.trans h'.pacing
  have hreach := hceiling ▸ pacing_reachable hinit h
  obtain ⟨-, hturn⟩ := next_rounds.mp hnext
  have hload := load_next h hconfig htyped hturn
  refine ⟨h', (Pacing.next_loop.mp hpaced).2, Pacing.rate_le_of_reachable hpos hreach, ?_⟩
  rw [shards_paced]
  exact_mod_cast hload

/-- A stretch of a run, from a state that the parts have followed the loop to. -/
theorem load_exec {ceiling : ℚ} (hceiling : sender.maxRate = some ceiling) (hpos : 0 < ceiling)
    {s₀ : SendStream} (hinit : (rounds sender gathered).init s₀) {events : List (SendLoop.Event × ℕ)}
    {turns : List Pacing.Turn} (h : Tracks sender gathered s₀ s events turns) {stretch : List Round}
    (hexec : Labelled.exec (rounds sender gathered) stretch s = some s')
    (htyped : ∀ r ∈ stretch, r.Typed sender.config.geometry)
    (hclock : (s.pacing.pacer.lastRefill :: stretch.map fun r => seconds r.top).Pairwise (· ≤ ·)) :
    (load s'.egress.sent : ℚ) +
        (headerSize + sender.config.geometry.blockSize) * s'.pacing.pacer.credit ≤
      load s.egress.sent + (headerSize + sender.config.geometry.blockSize) *
        (s.pacing.pacer.credit + max initialRate ceiling *
          (s'.pacing.pacer.lastRefill - s.pacing.pacer.lastRefill)) := by
  induction stretch generalizing s events turns with
  | nil =>
    cases hexec
    simp
  | cons r stretch ih =>
    rw [Labelled.exec_cons, Option.bind_eq_some_iff] at hexec
    obtain ⟨s₁, hnext, hexec⟩ := hexec
    obtain ⟨h₁, hpace, hrate, hload⟩ :=
      h.paced_next hceiling hpos hinit (htyped r List.mem_cons_self) hnext
    rw [List.map_cons, List.pairwise_cons] at hclock
    have hearned := Pacing.shards_add_credit_le hrate (hclock.1 _ List.mem_cons_self) hpace
    have hrest : (s₁.pacing.pacer.lastRefill :: stretch.map fun r => seconds r.top).Pairwise
        (· ≤ ·) := by
      rw [Pacing.lastRefill_turn hpace]
      exact hclock.2
    have hlater := ih h₁ hexec (fun r hr => htyped r (List.mem_cons_of_mem _ hr)) hrest
    have hsize : (0 : ℚ) ≤ headerSize + sender.config.geometry.blockSize := by positivity
    have hpaid := mul_le_mul_of_nonneg_left hearned hsize
    linarith

/-- Under a maximum, any stretch of a transfer puts no more bytes of shards on the wire than those
of one burst and of the time from its first refill to its last, both at the maximum, or at the
initial rate if that is higher. -/
theorem link_load_is_bounded {ceiling : ℚ} (hceiling : sender.maxRate = some ceiling)
    (hpos : 0 < ceiling) {s₀ : SendStream} (hinit : (rounds sender gathered).init s₀)
    {before stretch : List Round} (hbefore : Labelled.exec (rounds sender gathered) before s₀ = some s)
    (hexec : Labelled.exec (rounds sender gathered) stretch s = some s')
    (htyped : ∀ r ∈ before ++ stretch, r.Typed sender.config.geometry)
    (hclock : (stretch.map fun r => seconds r.top).Pairwise (· ≤ ·)) :
    (load s'.egress.sent : ℚ) ≤
      load s.egress.sent + (headerSize + sender.config.geometry.blockSize) *
        (burstCap (max initialRate ceiling) + max initialRate ceiling *
          (s'.pacing.pacer.lastRefill -
            (stretch.map fun r => seconds r.top).headD s.pacing.pacer.lastRefill)) := by
  have hsize : (0 : ℚ) ≤ headerSize + sender.config.geometry.blockSize := by positivity
  have htracks := tracks_of_exec hinit hbefore fun r hr => htyped r (List.mem_append_left _ hr)
  have hstretch : ∀ r ∈ stretch, r.Typed sender.config.geometry :=
    fun r hr => htyped r (List.mem_append_right _ hr)
  have hleft : 0 ≤ s'.pacing.pacer.credit := by
    have hall : Labelled.exec (rounds sender gathered) (before ++ stretch) s₀ = some s' :=
      (Labelled.exec_append_of_eq hbefore).trans hexec
    have hend := pacing_reachable hinit (tracks_of_exec hinit hall htyped)
    rw [hceiling] at hend
    exact Pacing.credit_nonneg_of_reachable hpos hend
  have hheld := mul_nonneg hsize hleft
  cases stretch with
  | nil =>
    cases hexec
    have hburst := mul_nonneg hsize (Pacer.burstCap_nonneg (max initialRate ceiling))
    simpa using hburst
  | cons first rest =>
    rw [Labelled.exec_cons, Option.bind_eq_some_iff] at hexec
    obtain ⟨s₁, hnext, hexec⟩ := hexec
    obtain ⟨htracks₁, hpace, hrate, hload⟩ :=
      htracks.paced_next hceiling hpos hinit (hstretch first List.mem_cons_self) hnext
    have hrefill : s₁.pacing.pacer.lastRefill = seconds first.top := Pacing.lastRefill_turn hpace
    -- the first refill leaves one burst at most, whatever came before it
    have hburst := Pacing.shards_add_credit_le_burstCap hrate hpace
    have hlater := load_exec hceiling hpos hinit htracks₁ hexec
      (fun r hr => hstretch r (List.mem_cons_of_mem _ hr)) (by rw [hrefill]; exact hclock)
    have hspent := mul_le_mul_of_nonneg_left hburst hsize
    rw [List.map_cons, List.headD_cons, ← hrefill]
    linarith

/-- A maximum below the initial rate, and a shard in six milliseconds. -/
theorem link_load_is_bounded_slow : ∃ s,
    Labelled.exec (rounds ⟨.tiny 2, 4, some 1000⟩ [.join 7 0]) threeRounds
      (start ⟨.tiny 2, 4, some 1000⟩ (SendLoop.gather [.join 7 0]) 0) = some s ∧
    (load s.egress.sent : ℚ) ≤
      (headerSize + 2) * (burstCap 6000 + 6000 * s.pacing.pacer.lastRefill) := by
  obtain ⟨s, hexec⟩ : ∃ s, Labelled.exec (rounds ⟨.tiny 2, 4, some 1000⟩ [.join 7 0]) threeRounds
      (start ⟨.tiny 2, 4, some 1000⟩ (SendLoop.gather [.join 7 0]) 0) = some s := by
    apply Option.isSome_iff_exists.mp
    decide +kernel
  have hinit : (rounds ⟨.tiny 2, 4, some 1000⟩ [.join 7 0]).init
      (start ⟨.tiny 2, 4, some 1000⟩ (SendLoop.gather [.join 7 0]) 0) := ⟨by decide, 0, rfl⟩
  have hblock : [1, 0].length = (Config.tiny 2).geometry.blockSize := rfl
  have htyped : ∀ r ∈ [] ++ threeRounds, r.Typed (Config.tiny 2).geometry := by
    simp [threeRounds, Round.Typed, Outbound.Typed, ← hblock]
  have hclock : (threeRounds.map fun r => seconds r.top).Pairwise (· ≤ ·) := by
    simp [threeRounds, seconds]
    norm_num
  have hbound := link_load_is_bounded rfl (by norm_num : (0 : ℚ) < 1000) hinit rfl hexec htyped hclock
  have hfirst : (threeRounds.map fun r => seconds r.top).headD
      (start ⟨.tiny 2, 4, some 1000⟩ (SendLoop.gather [.join 7 0]) 0).pacing.pacer.lastRefill = 0 := by
    norm_num [threeRounds, seconds]
  have hnone : load (start ⟨.tiny 2, 4, some 1000⟩ (SendLoop.gather [.join 7 0]) 0).egress.sent = 0 :=
    rfl
  have hrate : max initialRate 1000 = 6000 := max_eq_left (by norm_num)
  have hsize : (Config.tiny 2).geometry.blockSize = 2 := rfl
  rw [hfirst, hnone, hrate, hsize, sub_zero, Nat.cast_zero, zero_add] at hbound
  exact ⟨s, hexec, hbound⟩

end SendStream
end Scuttlecast
