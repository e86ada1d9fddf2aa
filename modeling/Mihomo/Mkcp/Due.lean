import Mihomo.Mkcp.Conn

/-!
# When a segment is due

A segment is due for 2^31 - 1 ms from its timeout on. `Write` leaves the timeout 0 to mean that it was
never sent, so that new data is not due in the second half of the counter's circle.
-/

namespace Mihomo.Mkcp
open List

def DataSegment.due (current : UInt32) (seg : DataSegment) : Bool := current - seg.timeout < 0x7fffffff

theorem DataSegment.due_again {seg : DataSegment} {current r : UInt32} (h : seg.timeout = current + r)
    (hr : r.toNat < 2 ^ 31) {k : Nat} (hk : k < 2 ^ 32) :
    seg.due (current + .ofNat k) = true ↔ r.toNat ≤ k ∧ k < r.toNat + (2 ^ 31 - 1) := by
  have hdiff : current + .ofNat k - seg.timeout = .ofNat k - r := by
    grind
  rw [due, decide_eq_true_iff, hdiff]
  change (2 ^ 32 - r.toNat + k % 2 ^ 32) % 2 ^ 32 < 2147483647 ↔ _
  omega

namespace Conn

variable (c : Conn) (current : UInt32)

def sent (seg : DataSegment) : DataSegment :=
  { seg with
    conv := c.conv
    timestamp := current
    sendingNext := c.firstUnacked
    option := c.closeOption
    transmit := seg.transmit + 1
    timeout := current + max c.rto c.cfg.tti }

/-- The loop sends the first due segments, as many as `cwnd` allows and one at least. -/
theorem flushWindow_segments {cwnd : UInt32} {rest : List DataSegment} {f : SendFlush} {n : Nat}
    (hn : f.inFlight.toNat + n + 1 = max cwnd.toNat 1) :
    (c.flushWindow current cwnd rest f).segments =
      f.segments ++ ((rest.filter (·.due current)).take (n + 1)).map (c.sent current) := by
  induction rest generalizing f n with
  | nil => simp [flushWindow]
  | cons seg rest ih =>
    rw [flushWindow]
    split
    next hskip =>
      rw [filter_cons_of_neg (by simpa [DataSegment.due] using hskip)]
      exact ih hn
    next hdue =>
      have hone : (f.inFlight + 1).toNat = f.inFlight.toNat + 1 := by
        have := cwnd.toNat_lt
        rw [UInt32.toNat_add, UInt32.toNat_one]
        omega
      rw [filter_cons_of_pos (by simpa [DataSegment.due] using hdue), take_succ_cons, map_cons,
        append_cons]
      have hstop : f.inFlight + 1 ≥ cwnd ↔ n = 0 := by
        rw [ge_iff_le, UInt32.le_iff_toNat_le]
        omega
      cases n with
      | zero =>
        rw [if_pos (hstop.mpr rfl), take_zero, map_nil, append_nil]
        rfl
      | succ n =>
        rw [if_neg (mt hstop.mp (Nat.succ_ne_zero n))]
        exact ih (by rw [hone]; omega)

/-- A segment that was never sent and that the loop reaches is sent exactly in the first half of the
counter's circle. -/
theorem transmits_iff (before : List DataSegment) (seg : DataSegment) (rest : List DataSegment)
    (hwindow : c.sendWindow = before ++ seg :: rest) (hseg : seg.transmit = 0)
    (hnew : ∀ s ∈ c.sendWindow, s.transmit = 0 → s.timeout = 0)
    (hreach : before.countP (·.due current) < max c.sendingWindow.toNat 1) :
    ((∃ s, .data s ∈ (c.flushSendLocked current).2 ∧ s.transmit = 1 ∧ s.number = seg.number ∧
        s.payload = seg.payload) ∧
      ∀ s r, .data s ∈ (c.flushSendLocked current).2 → r = (max c.rto c.cfg.tti).toNat → r < 2 ^ 31 →
        ∀ k < 2 ^ 32, s.due (current + .ofNat k) = true ↔ r ≤ k ∧ k < r + (2 ^ 31 - 1)) ↔
      current < 0x7fffffff := by
  have hsent : ∀ s, .data s ∈ (c.flushSendLocked current).2 ↔ ∃ q ∈ (c.sendWindow.filter
      (·.due current)).take (max c.sendingWindow.toNat 1), c.sent current q = s := by
    intro s
    rw [flushSendLocked, if_neg (by rw [hwindow]; simp)]
    dsimp only
    obtain ⟨n, hn⟩ := Nat.exists_eq_add_of_lt (le_max_right c.sendingWindow.toNat 1)
    rw [flushWindow_segments c current hn.symm, hn, Nat.zero_add, nil_append, map_map, mem_map]
    simp
  simp only [hsent]
  constructor
  · rintro ⟨⟨_, ⟨q, hq, rfl⟩, htransmit, -⟩, -⟩
    obtain ⟨hq, hdue⟩ := mem_filter.mp (mem_of_mem_take hq)
    have hzero : q.transmit = 0 := by
      simpa [sent] using htransmit
    simpa [DataSegment.due, hnew q hq hzero] using hdue
  · intro hhalf
    refine ⟨⟨_, ⟨seg, ?_, rfl⟩, by rw [sent, hseg]; rfl, rfl, rfl⟩, ?_⟩
    · have hdue : seg.due current = true := by
        rw [DataSegment.due, hnew seg (by simp [hwindow]) hseg]
        simpa using hhalf
      rw [countP_eq_length_filter] at hreach
      rw [hwindow, filter_append, filter_cons_of_pos hdue, take_append]
      obtain ⟨n, hn⟩ := Nat.exists_eq_add_of_lt hreach
      rw [hn, Nat.add_assoc, Nat.add_sub_cancel_left, take_succ_cons]
      simp
    · rintro _ r ⟨q, hq, rfl⟩ rfl hr k hk
      exact DataSegment.due_again rfl hr hk

theorem transmits_first : ∃ c c', newConn {} 0 0 = some c ∧ c.write [1] = .accepted c' ∧
    ∃ s, .data s ∈ (c'.flushSendLocked 5).2 ∧ s.transmit = 1 ∧ s.number = 0 ∧ s.payload = [1] :=
  ⟨_, _, rfl, rfl, And.left (Iff.mpr (transmits_iff _ 5 [] ⟨0, 0, 0, 0, 0, [1], 0, 0⟩ [] rfl rfl
    (by decide) (by decide)) (by decide))⟩

theorem new_data_not_sent : ∃ c c', newConn {} 0 0 = some c ∧ c.write [1] = .accepted c' ∧
    (c'.flushSendLocked 0x7fffffff).2 = [] := ⟨_, _, rfl, rfl, rfl⟩

end Conn
end Mihomo.Mkcp
