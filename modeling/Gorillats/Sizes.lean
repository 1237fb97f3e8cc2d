import Gorillats.Capacity
import Gorillats.Shortest
/-!
# Sizes — the smallest and the largest stream of a number of points

A point takes at least two bits after the first.  The worst value is a new block of all its bits, 13 more than its
width, but a series pays for it once: such a block's window covers every later XOR, so it is the last block.  Up to then a
block leaves a bit out of its window, and one that the next block needs can be found each time.
-/
namespace Gorillats

open BitString BitParser

variable {T : ValueType}

/-- The most bits a stream of `n` points takes. -/
def worstStream (T : ValueType) : Nat → Nat
  | 0 => 64
  | 1 => 64 + (36 + T.width)
  | n + 2 => 64 + (36 + T.width) + (T.width + 48) * (n + 1) + 1

/-- The fewest bits a stream of `n` points takes. -/
def leastStream (T : ValueType) : Nat → Nat
  | 0 => 64
  | n + 1 => 64 + (T.width + 1) + 2 * n

/-! ## The potential -/

/-- The window of the last block leaves no bit out. -/
def GtValState.widest (s : GtValState) : Prop := s.hasBlock = true ∧ s.prevLz = 0 ∧ s.prevTz = 0

instance (s : GtValState) : Decidable s.widest := inferInstanceAs (Decidable (_ ∧ _))

/-- The bit that a block of all bits may still take. -/
def GtValState.credit (s : GtValState) : Nat := if s.widest then 0 else 1

theorem GtValState.credit_le (s : GtValState) : s.credit ≤ 1 := by
  unfold credit
  split <;> decide

/-- The invariant after the first value. -/
structure Started (width : Nat) (s : GtValState) : Prop where
  hasValue : s.hasValue = true
  window   : WinOk width s

theorem Started.next {width : Nat} {s : GtValState} (h : Started width s) (hw : width ≤ 64) {bits : U64}
    (hb : bits.toNat < 2 ^ width) : Started width (s.next width bits) :=
  ⟨GtValState.next_hasValue .., h.window.next hw hb⟩

/-- The widest window covers every XOR. -/
theorem reuses_of_widest {width : Nat} {s : GtValState} (hs : s.widest) (hw : width ≤ 64) (h1 : 1 ≤ width) {x : U64}
    (hx : x ≠ 0) (hlt : x.toNat < 2 ^ width) : s.reuses x width := by
  obtain ⟨hblock, hlz, htz⟩ := hs
  obtain ⟨h1, -, h3, -⟩ := xor_window hx hw hlt
  exact ⟨hblock, by omega, by omega, by omega⟩

section Branches

variable {width : Nat} {s : GtValState} {bits : U64}

theorem length_valCode_reuse (hs : Started width s) (hx : bits ^^^ s.prevBits ≠ 0)
    (hr : s.reuses (bits ^^^ s.prevBits) width) :
    (valCode width s bits).length = 2 + sigBits width s.prevLz s.prevTz := by
  unfold valCode
  dsimp only
  rw [if_neg (by simp [hs.hasValue]), if_neg hx, if_pos hr, List.length_append, length_toBits]
  rfl

theorem length_valCode_block (hs : Started width s) (hx : bits ^^^ s.prevBits ≠ 0)
    (hr : ¬ s.reuses (bits ^^^ s.prevBits) width) :
    (valCode width s bits).length =
      13 + sigBits width (xorLz (bits ^^^ s.prevBits) width) (gtCtz64 (bits ^^^ s.prevBits)) := by
  unfold valCode
  dsimp only
  rw [if_neg (by simp [hs.hasValue]), if_neg hx, if_neg hr]
  simp only [List.length_append, length_toBits, List.length_cons, List.length_nil]

theorem next_block (hs : Started width s) (hx : bits ^^^ s.prevBits ≠ 0) (hr : ¬ s.reuses (bits ^^^ s.prevBits) width) :
    s.next width bits =
      { s with
        prevBits := bits
        prevLz := xorLz (bits ^^^ s.prevBits) width
        prevTz := gtCtz64 (bits ^^^ s.prevBits)
        hasBlock := true } := by
  unfold GtValState.next
  dsimp only
  rw [if_neg (by simp [hs.hasValue]), if_neg hx, if_neg hr]

theorem credit_of_not_block (hs : Started width s)
    (h : bits ^^^ s.prevBits = 0 ∨ s.reuses (bits ^^^ s.prevBits) width) : (s.next width bits).credit = s.credit := by
  unfold GtValState.next
  dsimp only
  rw [if_neg (by simp [hs.hasValue])]
  by_cases hx : bits ^^^ s.prevBits = 0
  · rw [if_pos hx]
    rfl
  · rw [if_neg hx, if_pos (h.resolve_left hx)]
    rfl

/-- **A value takes at most 12 bits more than its width**, and one more where it uses up the credit. -/
theorem length_valCode_add_credit_le (hs : Started width s) (hw : width ≤ 64) (h1 : 1 ≤ width)
    (hb : bits.toNat < 2 ^ width) :
    (valCode width s bits).length + (s.next width bits).credit ≤ width + 12 + s.credit := by
  by_cases hx : bits ^^^ s.prevBits = 0
  · have hone : (valCode width s bits).length = 1 := by
      unfold valCode
      dsimp only
      rw [if_neg (by simp [hs.hasValue]), if_pos hx, List.length_singleton]
    rw [credit_of_not_block hs (.inl hx), hone]
    omega
  have hlt := xor_lt hb hs.window.bits
  by_cases hr : s.reuses (bits ^^^ s.prevBits) width
  · obtain ⟨h1, -, h3, -⟩ := hs.window.window hr.1
    have hsig : sigBits width s.prevLz s.prevTz ≤ width := sigBits_le h1 h3
    rw [credit_of_not_block hs (.inr hr), length_valCode_reuse hs hx hr]
    omega
  · obtain ⟨h1, -, h3, -, -⟩ := xor_window hx hw hlt
    -- no block follows one of all bits, so the credit is still there
    have hcredit : s.credit = 1 := if_neg fun hwidest => hr (reuses_of_widest hwidest hw (by omega) hx hlt)
    have hafter : (s.next width bits).credit ≤ 1 := GtValState.credit_le _
    rw [length_valCode_block hs hx hr, hcredit]
    unfold sigBits
    by_cases hall : xorLz (bits ^^^ s.prevBits) width = 0 ∧ gtCtz64 (bits ^^^ s.prevBits) = 0
    · have hspent : (s.next width bits).credit = 0 := by
        rw [next_block hs hx hr]
        exact if_pos ⟨rfl, hall⟩
      rw [hspent]
      omega
    · omega

end Branches

/-! ## Bounds on a stream -/

theorem length_code (e : CoderState) (p : Point T) : ((pointCoder T).code e p).length =
    (dodCode (e.ts.dod p.1)).length + (valCode T.width e.vs (T.toBits p.2)).length := List.length_append

theorem length_code_add_credit_le {e : CoderState} (h : Started T.width e.vs) (p : Point T) :
    ((pointCoder T).code e p).length + ((pointCoder T).next e p).vs.credit ≤ T.width + 48 + e.vs.credit := by
  have hts := length_dodCode_le (e.ts.dod p.1)
  have hval := length_valCode_add_credit_le h T.width_le T.one_le_width (T.toBits_lt p.2)
  rw [length_code]
  change _ + (e.vs.next T.width (T.toBits p.2)).credit ≤ _
  omega

theorem one_le_length_dodCode (dod : I64) : 1 ≤ (dodCode dod).length := by
  unfold dodCode
  split_ifs <;> simp

theorem one_le_length_valCode (width : Nat) (s : GtValState) (h1 : 1 ≤ width) (bits : U64) :
    1 ≤ (valCode width s bits).length := by
  unfold valCode
  dsimp only
  split_ifs
  · rwa [length_toBits]
  · exact Nat.le_refl 1
  · simp
  · simp

theorem two_le_length_code (e : CoderState) (p : Point T) : 2 ≤ ((pointCoder T).code e p).length := by
  have hts := one_le_length_dodCode (e.ts.dod p.1)
  have hval := one_le_length_valCode T.width e.vs T.one_le_width (T.toBits p.2)
  rw [length_code]
  omega

/-- The first value is raw. -/
theorem length_code_start (t0 : I64) (p : Point T) : ((pointCoder T).code (startState t0) p).length =
    (dodCode ((startState t0).ts.dod p.1)).length + T.width := by
  rw [length_code]
  congr 1
  exact length_toBits _ _

theorem started_next_start (t0 : I64) (p : Point T) : Started T.width ((pointCoder T).next (startState t0) p).vs :=
  ⟨GtValState.next_hasValue .., (winOk_init T.width).next T.width_le (T.toBits_lt p.2)⟩

theorem credit_next_start (t0 : I64) (p : Point T) : ((pointCoder T).next (startState t0) p).vs.credit = 1 :=
  if_neg fun h => by cases h.1

theorem stream_le_worst (t0 : I64) : ∀ pts : List (Point T), (stream T t0 pts).length ≤ worstStream T pts.length
  | [] => by rw [length_stream]; exact Nat.le_refl 64
  | [p] => by
    have hts := length_dodCode_le ((startState t0).ts.dod p.1)
    rw [length_stream, BitCoder.codes_cons, BitCoder.codes_nil, List.append_nil, length_code_start]
    change _ ≤ 64 + (36 + T.width)
    omega
  | p :: q :: pts => by
    have hts := length_dodCode_le ((startState t0).ts.dod p.1)
    have hrest := (pointCoder T).length_codes_add_le (fun e => Started T.width e.vs) (fun e => e.vs.credit)
      (fun _ p h => h.next T.width_le (T.toBits_lt p.2)) (fun _ p h => length_code_add_credit_le h p) (q :: pts)
      (started_next_start t0 p)
    rw [credit_next_start] at hrest
    rw [length_stream, BitCoder.codes_cons, List.length_append, length_code_start]
    change _ ≤ 64 + (36 + T.width) + (T.width + 48) * (pts.length + 1) + 1
    rw [List.length_cons] at hrest
    omega

theorem least_le_stream (t0 : I64) : ∀ pts : List (Point T), leastStream T pts.length ≤ (stream T t0 pts).length
  | [] => by rw [length_stream]; exact Nat.le_refl 64
  | p :: pts => by
    have hts := one_le_length_dodCode ((startState t0).ts.dod p.1)
    have hrest := (pointCoder T).le_length_codes (fun _ => True) (B := 2) (fun _ _ _ => trivial)
      (fun e p _ => two_le_length_code e p) pts (e := (pointCoder T).next (startState t0) p) trivial
    rw [length_stream, BitCoder.codes_cons, List.length_append, length_code_start]
    change 64 + (T.width + 1) + 2 * pts.length ≤ _
    omega

/-! ## Series that meet them -/

/-- Some timestamp falls in the last bucket, in any state. -/
theorem exists_far (s : GtTsState) : ∃ ts, (dodCode (s.dod ts)).length = 36 :=
  ⟨s.prevTs + (4096 + s.prevDelta), by rw [readTs_dod]; decide⟩

/-- Some value has any XOR, in any state. -/
theorem exists_value {s : GtValState} (hs : Started T.width s) {x : U64} (hlt : x.toNat < 2 ^ T.width) :
    ∃ v : Value T, T.toBits v ^^^ s.prevBits = x := by
  refine ⟨T.ofBits (x ^^^ s.prevBits), ?_⟩
  rw [T.toBits_ofBits (xor_lt hlt hs.window.bits), BitVec.xor_assoc, BitVec.xor_self, BitVec.xor_zero]

/-- XORs that leave at most one bit out of their window. -/
theorem exists_xor (T : ValueType) : ∀ lz tz : Nat, lz + tz ≤ 1 →
    ∃ x : U64, x ≠ 0 ∧ x.toNat < 2 ^ T.width ∧ xorLz x T.width = lz ∧ gtCtz64 x = tz
  | 0, 0, _ => ⟨BitVec.twoPow 64 (T.width - 1) + 1, by cases T <;> decide +kernel⟩
  | 0, 1, _ => ⟨BitVec.twoPow 64 (T.width - 1) + 2, by cases T <;> decide +kernel⟩
  | 1, 0, _ => ⟨BitVec.twoPow 64 (T.width - 2) + 1, by cases T <;> decide +kernel⟩
  | 0, _ + 2, h | _ + 1, _ + 1, h | _ + 2, _, h => by omega

/-- **A block of a given window**, where the last one does not cover it. -/
theorem exists_block {e : CoderState} (he : Started T.width e.vs) (lz tz : Nat) (h1 : lz + tz ≤ 1)
    (hr : e.vs.hasBlock = true → (lz : Int) < e.vs.prevLz ∨ (tz : Int) < e.vs.prevTz) :
    ∃ p : Point T, ((pointCoder T).code e p).length = 36 + (13 + (T.width - lz - tz)) ∧
      Started T.width ((pointCoder T).next e p).vs ∧ ((pointCoder T).next e p).vs.hasBlock = true ∧
      ((pointCoder T).next e p).vs.prevLz = lz ∧ ((pointCoder T).next e p).vs.prevTz = tz := by
  obtain ⟨ts, hts⟩ := exists_far e.ts
  obtain ⟨x, hx, hlt, hlz, htz⟩ := exists_xor T lz tz h1
  obtain ⟨v, hv⟩ := exists_value he hlt
  have hblock : ¬ e.vs.reuses (T.toBits v ^^^ e.vs.prevBits) T.width := by
    rintro ⟨hb, hge, hge', -⟩
    rw [hv, hlz] at hge
    rw [hv, htz] at hge'
    have := hr hb
    omega
  have hne : T.toBits v ^^^ e.vs.prevBits ≠ 0 := by rwa [hv]
  have hnext : ((pointCoder T).next e (ts, v)).vs = e.vs.next T.width (T.toBits v) := rfl
  refine ⟨(ts, v), ?_, he.next T.width_le (T.toBits_lt v), ?_, ?_, ?_⟩
  · rw [length_code, hts, length_valCode_block he hne hblock, hv, hlz, htz]
    unfold sigBits
    omega
  all_goals rw [hnext, next_block he hne hblock]
  · rw [hv]
    exact hlz
  · rw [hv]
    exact htz

/-- A block of all bits but one, in any state that has the credit for one more. -/
theorem exists_block_of_credit (e : CoderState) (he : Started T.width e.vs ∧ ¬ e.vs.widest) :
    ∃ p : Point T, ((pointCoder T).code e p).length = T.width + 48 ∧
      Started T.width ((pointCoder T).next e p).vs ∧ ¬ ((pointCoder T).next e p).vs.widest := by
  obtain ⟨hstart, hcredit⟩ := he
  have hw := T.one_le_width
  by_cases htz : e.vs.hasBlock = true ∧ e.vs.prevTz = 0
  · -- the last window reaches the lowest bit, so it leaves a high one out
    obtain ⟨hb, htz⟩ := htz
    have hlz : e.vs.prevLz ≠ 0 := fun hlz => hcredit ⟨hb, hlz, htz⟩
    have hwin := hstart.window.window hb
    obtain ⟨p, hlen, hnext, -, -, htz'⟩ := exists_block (T := T) hstart 0 1 (by decide)
      fun _ => .inl (by omega)
    exact ⟨p, by omega, hnext, fun h => by rw [h.2.2] at htz'; cases htz'⟩
  · obtain ⟨p, hlen, hnext, -, hlz', -⟩ := exists_block (T := T) hstart 1 0 (by decide) fun hb => by
      have hwin := hstart.window.window hb
      have : e.vs.prevTz ≠ 0 := fun h => htz ⟨hb, h⟩
      exact .inr (by omega)
    exact ⟨p, by omega, hnext, fun h => by rw [h.2.1] at hlz'; cases hlz'⟩

theorem exists_worst (T : ValueType) (t0 : I64) : ∀ n : Nat,
    ∃ pts : List (Point T), pts.length = n ∧ (stream T t0 pts).length = worstStream T n
  | 0 => ⟨[], rfl, by rw [length_stream]; rfl⟩
  | 1 => by
    obtain ⟨ts, hts⟩ := exists_far (startState t0).ts
    refine ⟨[(ts, 0)], rfl, ?_⟩
    rw [length_stream, BitCoder.codes_cons, BitCoder.codes_nil, List.append_nil, length_code_start, hts]
    rfl
  | n + 2 => by
    obtain ⟨ts, hts⟩ := exists_far (startState t0).ts
    have hstart : Started T.width ((pointCoder T).next (startState t0) (ts, 0)).vs ∧
        ¬ ((pointCoder T).next (startState t0) (ts, 0)).vs.widest := ⟨started_next_start t0 _, fun h => by cases h.1⟩
    obtain ⟨as, hlen, has, hstarted, hcredit⟩ := (pointCoder T).exists_length_codes
      (fun e => Started T.width e.vs ∧ ¬ e.vs.widest) exists_block_of_credit n hstart
    -- the last point spends the credit
    obtain ⟨q, hq, -⟩ := exists_block (T := T) hstarted 0 0 (by decide) fun hb => by
      obtain ⟨h1, -, h3, -⟩ := hstarted.window.window hb
      by_contra hno
      exact hcredit ⟨hb, by omega, by omega⟩
    refine ⟨(ts, 0) :: (as ++ [q]), by simp [hlen], ?_⟩
    rw [length_stream, BitCoder.codes_cons, List.length_append, length_code_start, hts, BitCoder.codes_append,
      BitCoder.codes_cons, BitCoder.codes_nil, List.append_nil, List.length_append, has, hq, worstStream, Nat.mul_succ]
    omega

theorem exists_least (T : ValueType) (t0 : I64) : ∀ n : Nat,
    ∃ pts : List (Point T), pts.length = n ∧ (stream T t0 pts).length = leastStream T n
  | 0 => ⟨[], rfl, by rw [length_stream]; rfl⟩
  | n + 1 => by
    have hrepeat : ∀ e : CoderState, Started T.width e.vs →
        ∃ p : Point T, ((pointCoder T).code e p).length = 2 ∧ Started T.width ((pointCoder T).next e p).vs := by
      intro e he
      obtain ⟨hcode, hnext⟩ := code_repeat (T := T) he.hasValue (T.toBits_ofBits he.window.bits)
      exact ⟨_, by rw [hcode]; rfl, by rw [hnext]; exact he⟩
    obtain ⟨as, hlen, has, -⟩ := (pointCoder T).exists_length_codes (fun e => Started T.width e.vs) hrepeat n
      (started_next_start t0 ((t0, 0) : Point T))
    have hdod : (startState t0).ts.dod t0 = 0 := by
      change t0 - t0 - 0 = 0
      rw [BitVec.sub_self]
      rfl
    refine ⟨(t0, 0) :: as, by rw [List.length_cons, hlen], ?_⟩
    rw [length_stream, BitCoder.codes_cons, List.length_append, length_code_start, has]
    simp only [hdod]
    change 64 + (1 + T.width + 2 * n) = 64 + (T.width + 1) + 2 * n
    omega

/-! ## Sizes and capacities -/

/-- **The exact sizes.**  The streams of `n` points take from `leastStream` to `worstStream` bits, both of which are met,
and the bytes of `worstStream` are the smallest capacity at which no run of calls with `n` points ever overflows. -/
theorem stream_sizes (T : ValueType) (n : Nat) :
    IsLeast {len | ∃ (t0 : I64) (pts : List (Point T)), pts.length = n ∧ (stream T t0 pts).length = len}
        (leastStream T n) ∧
      IsGreatest {len | ∃ (t0 : I64) (pts : List (Point T)), pts.length = n ∧ (stream T t0 pts).length = len}
        (worstStream T n) ∧
      IsLeast {cap | 8 ≤ cap ∧ ∀ (buf : List U8) (t0 : I64) (calls : List (Call T)), buf.length = cap →
          (fed calls).length = n → ∀ r ∈ (runCalls (T.create (some buf) t0) calls).1, r.1 = .ok}
        ((worstStream T n + 7) / 8) := by
  have h64 : 64 ≤ worstStream T n := by
    obtain ⟨pts, -, hlen⟩ := exists_worst T 0 n
    rw [← hlen, length_stream]
    omega
  have hanswers : ∀ (buf : List U8) (t0 : I64) (calls : List (Call T)), 8 ≤ buf.length →
      ((∀ r ∈ (runCalls (T.create (some buf) t0) calls).1, r.1 = .ok) ↔
        (stream T t0 (fed calls)).length ≤ 8 * buf.length) := by
    intro buf t0 calls h8
    obtain ⟨rs, c, hrun, hans, -⟩ := runCalls_create (T := T) buf t0 calls h8
    rw [hrun]
    exact hans.ok_iff h8
  refine ⟨⟨⟨0, exists_least T 0 n⟩, ?_⟩, ⟨⟨0, exists_worst T 0 n⟩, ?_⟩, ⟨by omega, ?_⟩, ?_⟩
  · rintro len ⟨t0, pts, rfl, rfl⟩
    exact least_le_stream t0 pts
  · rintro len ⟨t0, pts, rfl, rfl⟩
    exact stream_le_worst t0 pts
  · rintro buf t0 calls hbuf rfl
    have hle := stream_le_worst t0 (fed calls)
    exact (hanswers buf t0 calls (by omega)).2 (by omega)
  · rintro cap ⟨h8, hall⟩
    obtain ⟨pts, hlen, hworst⟩ := exists_worst T 0 n
    have hcap : (List.replicate cap (0 : U8)).length = cap := List.length_replicate
    have hfed : fed [Call.batch pts] = pts := List.append_nil pts
    have hfit := (hanswers (List.replicate cap 0) 0 [.batch pts] (by omega)).1
      (hall _ 0 [.batch pts] hcap (by rw [hfed, hlen]))
    rw [hfed, hworst, hcap] at hfit
    omega

/-- 1000 points of type `double`: from 2127 to 112053 bits. -/
example : leastStream .double 1000 = 2127 ∧ worstStream .double 1000 = 112053 := by decide

end Gorillats
