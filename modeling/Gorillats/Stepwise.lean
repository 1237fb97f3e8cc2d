import Gorillats.ReadPaths
/-!
# Stepwise — the iterators, one point at a time

Both wrappers count down from the recorded count and decode when a point is asked for.  So on any bytes the Rust
iterator yields one list and then `None` for good, and the C++ iterator passes over the same list, point by point, to
`end()` or to the throw.  What the Rust `size_hint` promises is the recorded count, so it is exact when the stream holds
that many points.
-/
namespace Gorillats

variable (ub : U64 → Int → U64) {T : ValueType}

/-! ## Rust -/

namespace Rust

/-- The iterator after `k` calls of `next`. -/
def Points.after (it : Points T) : Nat → Points T
  | 0 => it
  | k + 1 => (it.next ub).2.after k

variable {ub}

/-- **After `k` calls** the iterator is `k` points further in its list, or past the end of the stream. -/
theorem Points.after_of_delivers : ∀ (k : Nat) {it : Points T} {L : List (Point T)}, Delivers ub it.handle L →
    ∃ L', Delivers ub (it.after ub k).handle L' ∧ L'.take (it.after ub k).remaining = (L.take it.remaining).drop k ∧
      (it.after ub k).remaining = if L.length < k then 0 else it.remaining - k
  | 0, it, L, h => ⟨L, h, rfl, by rw [if_neg (Nat.not_lt_zero _)]; rfl⟩
  | k + 1, ⟨handle, 0⟩, L, h => by
    obtain ⟨L', hL', htake, hrem⟩ := Points.after_of_delivers k h
    have hnext : (Points.next ub ⟨handle, 0⟩ : Option (Point T) × Points T).2 = ⟨handle, 0⟩ := rfl
    rw [Points.after, hnext]
    refine ⟨L', hL', ?_, ?_⟩
    · rw [htake, List.take_zero, List.drop_nil, List.drop_nil]
    · rw [hrem]
      dsimp only
      split <;> split <;> omega
  | k + 1, ⟨handle, n + 1⟩, [], h => by
    obtain ⟨handle', hd, hrest⟩ := h.next_nil
    have hnext : (Points.next ub ⟨handle, n + 1⟩ : Option (Point T) × Points T).2 = ⟨handle', 0⟩ := by
      rw [Points.next, if_neg (Nat.succ_ne_zero n), hd]
    obtain ⟨L', hL', htake, hrem⟩ := Points.after_of_delivers k
      (show Delivers ub (Points.mk handle' 0).handle [] from hrest)
    rw [Points.after, hnext]
    refine ⟨L', hL', ?_, ?_⟩
    · rw [htake, List.take_nil, List.take_nil, List.drop_nil, List.drop_nil]
    · rw [hrem]
      dsimp only [List.length_nil]
      split <;> split <;> omega
  | k + 1, ⟨handle, n + 1⟩, p :: L, h => by
    obtain ⟨handle', hd, hrest⟩ := h.next_cons
    have hnext : (Points.next ub ⟨handle, n + 1⟩ : Option (Point T) × Points T).2 = ⟨handle', n⟩ := by
      rw [Points.next, if_neg (Nat.succ_ne_zero n), hd]
      rfl
    obtain ⟨L', hL', htake, hrem⟩ := Points.after_of_delivers k
      (show Delivers ub (Points.mk handle' n).handle L from hrest)
    rw [Points.after, hnext]
    refine ⟨L', hL', ?_, ?_⟩
    · rw [htake, List.take_succ_cons, List.drop_succ_cons]
    · rw [hrem]
      dsimp only [List.length_cons]
      split <;> split <;> omega

theorem Points.next_of_delivers {it : Points T} {L : List (Point T)} (h : Delivers ub it.handle L) :
    (it.next ub).1 = (L.take it.remaining)[0]? := by
  obtain ⟨handle, remaining⟩ := it
  cases remaining with
  | zero => rfl
  | succ n =>
    rw [Points.next, if_neg (Nat.succ_ne_zero n)]
    cases L with
    | nil =>
      obtain ⟨handle', hd, -⟩ := h.next_nil
      rw [hd]
      rfl
    | cons p L =>
      obtain ⟨handle', hd, -⟩ := h.next_cons
      rw [hd]
      rfl

theorem Points.next_after_of_delivers {it : Points T} {L : List (Point T)} (h : Delivers ub it.handle L) (k : Nat) :
    ((it.after ub k).next ub).1 = (L.take it.remaining)[k]? := by
  obtain ⟨L', hL', htake, -⟩ := Points.after_of_delivers k h
  rw [Points.next_of_delivers hL', htake, List.getElem?_drop, Nat.add_zero]

variable (ub)

/-- The items an iterator still yields. -/
def Points.rest (it : Points T) : List (Point T) := it.items ub it.remaining

theorem Points.rest_of_delivers {it : Points T} {L : List (Point T)} (h : Delivers ub it.handle L) :
    it.rest ub = L.take it.remaining := Points.items_of_delivers ub _ h rfl

theorem iter_of_delivers {s : Decompressor T} {it : Points T} {L : List (Point T)} (hit : s.iter = .ok it)
    (h : Delivers ub (T.openStream (some (s.data.drop headerSize))) L) :
    Delivers ub it.handle L ∧ it.remaining = s.count.toNat := by
  obtain ⟨g, hg, -⟩ := h.some
  rw [Decompressor.iter] at hit
  simp only [hg] at hit
  cases hit
  rw [hg] at h
  exact ⟨h, rfl⟩

theorem length_payload_of_iter {s : Decompressor T} {it : Points T} (hit : s.iter = .ok it) :
    8 ≤ (s.data.drop headerSize).length := by
  by_contra hlt
  rw [Decompressor.iter, openStream_of_lt (Nat.not_le.1 hlt)] at hit
  cases hit

end Rust

/-! ## C++ -/

namespace Cpp

/-- The iterator after `k` increments, unless one throws. -/
def Iterator.advance (it : Iterator T) : Nat → Except Exception (Iterator T)
  | 0 => .ok it
  | k + 1 => do
    let it ← it.incr ub
    it.advance k

/-- The exception of a stream shorter than its count. -/
def truncated : Exception := .runtimeError "gorillats: truncated stream"

variable {ub}

theorem Iterator.advance_of_end : ∀ (k : Nat) {it : Iterator T}, it.remaining = 0 → it.advance ub k = .ok it
  | 0, _, _ => rfl
  | k + 1, it, h => by
    have hstay : it.incr ub = .ok it := by
      rw [Iterator.incr, if_neg (by omega)]
    rw [Iterator.advance, hstay]
    exact Iterator.advance_of_end k h

/-- **After `k` increments** of an iterator that holds a point and counts `n` more: at the `k`-th point of those it
passes, at the end, or thrown out where the stream ends too soon. -/
theorem Iterator.advance_of_delivers : ∀ (k : Nat) {it : Iterator T} {L : List (Point T)} {n : Nat},
    Delivers ub it.dec L → it.remaining = n + 1 →
    (k ≤ n ∧ k ≤ L.length → ∃ it', it.advance ub k = .ok it' ∧ (it.current :: L)[k]? = some it'.current ∧
      it'.remaining = n + 1 - k) ∧
    (n < k ∧ n ≤ L.length → ∃ it', it.advance ub k = .ok it' ∧ it'.remaining = 0) ∧
    (L.length < k ∧ L.length < n → it.advance ub k = .error truncated)
  | 0, it, L, n, _, hrem => ⟨fun _ => ⟨it, rfl, rfl, hrem⟩, fun h => absurd h.1 (Nat.not_lt_zero _),
      fun h => absurd h.1 (Nat.not_lt_zero _)⟩
  | k + 1, it, L, 0, h, hrem => by
    -- the last point: the increment only counts down, and every later one does nothing
    have hincr : it.incr ub = .ok { it with remaining := 0 } := by
      rw [Iterator.incr, hrem]
      rfl
    refine ⟨fun h => absurd h.1 (Nat.not_succ_le_zero k), fun _ => ⟨{ it with remaining := 0 }, ?_, rfl⟩,
      fun h => absurd h.2 (Nat.not_lt_zero _)⟩
    rw [Iterator.advance, hincr]
    exact Iterator.advance_of_end k rfl
  | k + 1, it, [], n + 1, h, hrem => by
    have hincr : it.incr ub = .error truncated := by
      rw [Iterator.incr, if_pos (by omega)]
      simp only [hrem]
      rw [if_pos (by omega)]
      exact Iterator.fetch_nil ub { it with remaining := n + 1 + 1 - 1 } h
    refine ⟨fun h => absurd h.2 (Nat.not_succ_le_zero k), fun h => absurd h.2 (Nat.not_succ_le_zero n), fun _ => ?_⟩
    rw [Iterator.advance, hincr]
    rfl
  | k + 1, it, p :: L, n + 1, h, hrem => by
    obtain ⟨dec, hfetch, hrest⟩ := Iterator.fetch_cons ub { it with remaining := n + 1 + 1 - 1 } h
    have hincr : it.incr ub = .ok { it with dec := dec, current := p, remaining := n + 1 } := by
      rw [Iterator.incr, if_pos (by omega)]
      simp only [hrem]
      rw [if_pos (by omega)]
      exact hfetch
    have hadvance : it.advance ub (k + 1) =
        Iterator.advance ub { it with dec := dec, current := p, remaining := n + 1 } k := by
      rw [Iterator.advance, hincr]
      rfl
    obtain ⟨hin, hend, hthrow⟩ := Iterator.advance_of_delivers k
      (show Delivers ub (Iterator.mk dec p (n + 1)).dec L from hrest) rfl
    rw [hadvance]
    refine ⟨fun hk => ?_, fun hk => ?_, fun hk => ?_⟩
    · obtain ⟨it', hit', hcur, hrem'⟩ := hin ⟨by omega, by rw [List.length_cons] at hk; omega⟩
      exact ⟨it', hit', hcur, by rw [hrem']; omega⟩
    · exact hend ⟨by omega, by rw [List.length_cons] at hk; omega⟩
    · exact hthrow ⟨by rw [List.length_cons] at hk; omega, by rw [List.length_cons] at hk; omega⟩

theorem BasicDecompressor.begin_of_delivers {r : BasicDecompressor T} {L : List (Point T)}
    (h : Delivers ub (T.openStream (some (r.data.drop headerSize))) L) :
    (r.count.toNat = 0 → r.begin ub = .ok {}) ∧
    (0 < r.count.toNat → L = [] → r.begin ub = .error truncated) ∧
    ∀ p L', 0 < r.count.toNat → L = p :: L' →
      ∃ dec, r.begin ub = .ok ⟨dec, p, r.count.toNat⟩ ∧ Delivers ub dec L' := by
  unfold begin Iterator.new
  refine ⟨fun hz => ?_, fun hpos hL => ?_, fun p L' hpos hL => ?_⟩
  · rw [hz]
    rfl
  · subst hL
    rw [if_pos hpos]
    exact Iterator.fetch_nil ub ⟨T.openStream (some (r.data.drop headerSize)), (0, 0), r.count.toNat⟩ h
  · subst hL
    rw [if_pos hpos]
    exact Iterator.fetch_cons ub ⟨T.openStream (some (r.data.drop headerSize)), (0, 0), r.count.toNat⟩ h

end Cpp

/-- **The two iterators pass over the same points**, on any bytes that open: what the Rust one yields at step `k` the C++
one holds after `k` increments, and where the Rust one has ended the C++ one is `end()` or has thrown, as the Rust one
yields the recorded number of points or not. -/
theorem lazy_readers_agree {data : List U8} {r : Cpp.BasicDecompressor T} {s : Rust.Decompressor T} {it : Rust.Points T}
    (hr : Cpp.BasicDecompressor.new T data = .ok r) (hs : Rust.Decompressor.new T data = .ok s) (hit : s.iter = .ok it)
    (k : Nat) :
    (∀ p, ((it.after ub k).next ub).1 = some p →
      ∃ i, (r.begin ub >>= fun i => i.advance ub k) = .ok i ∧ i.current = p ∧ i.eq r.end_ = false) ∧
    (((it.after ub k).next ub).1 = none → (it.rest ub).length = r.size.toNat →
      ∃ i, (r.begin ub >>= fun i => i.advance ub k) = .ok i ∧ i.eq r.end_ = true) ∧
    (((it.after ub k).next ub).1 = none → (it.rest ub).length ≠ r.size.toNat →
      (r.begin ub >>= fun i => i.advance ub k) = .error Cpp.truncated) := by
  obtain rfl := Cpp.eq_of_new hr
  obtain rfl := Rust.eq_of_new hs
  obtain ⟨L, hL⟩ := exists_delivers (T := T) ub (Rust.length_payload_of_iter hit)
  obtain ⟨hdel, hrem⟩ := Rust.iter_of_delivers ub hit hL
  rw [Rust.Points.next_after_of_delivers hdel, Rust.Points.rest_of_delivers ub hdel, hrem]
  generalize hr : ({ data := data, count := getU64Le (data.drop 8) } : Cpp.BasicDecompressor T) = r
  have hcount : getU64Le (data.drop 8) = r.count := by rw [← hr]
  have hdata : data = r.data := by rw [← hr]
  rw [hcount, show r.size = r.count from rfl]
  simp only [hdata] at hL
  obtain ⟨hzero, hnil, hcons⟩ := Cpp.BasicDecompressor.begin_of_delivers hL
  generalize hn : r.count.toNat = n at hzero hnil hcons ⊢
  have heq : ∀ i : Cpp.Iterator T, i.eq r.end_ = (i.remaining == 0) := fun _ => rfl
  cases n with
  | zero =>
    rw [hzero rfl]
    have hstay : (({} : Cpp.Iterator T)).advance ub k = .ok {} := Cpp.Iterator.advance_of_end k rfl
    exact ⟨nofun, fun _ _ => ⟨{}, hstay, rfl⟩, fun _ hne => absurd rfl hne⟩
  | succ m =>
    cases L with
    | nil =>
      rw [hnil (Nat.succ_pos m) rfl]
      exact ⟨nofun, nofun, fun _ _ => rfl⟩
    | cons q L =>
      obtain ⟨dec, hbegin, hrest⟩ := hcons q L (Nat.succ_pos m) rfl
      obtain ⟨hin, hend, hthrow⟩ := Cpp.Iterator.advance_of_delivers k
        (show Delivers ub (Cpp.Iterator.mk dec q (m + 1)).dec L from hrest) rfl
      have hbind : (r.begin ub >>= fun i => i.advance ub k) = (Cpp.Iterator.mk dec q (m + 1)).advance ub k := by
        rw [hbegin]
        rfl
      rw [hbind]
      simp only [List.getElem?_eq_none_iff, List.length_take, List.length_cons]
      refine ⟨fun p hp => ?_, fun hk hlen => ?_, fun hk hlen => ?_⟩
      · obtain ⟨hk, -⟩ := List.getElem?_eq_some_iff.1 hp
        rw [List.length_take, List.length_cons] at hk
        obtain ⟨i, hi, hcur, hleft⟩ := hin ⟨by omega, by omega⟩
        rw [List.getElem?_take_of_lt (by omega), hcur] at hp
        refine ⟨i, hi, Option.some.inj hp, ?_⟩
        rw [heq, hleft, beq_eq_false_iff_ne]
        omega
      · obtain ⟨i, hi, hleft⟩ := hend ⟨by omega, by omega⟩
        exact ⟨i, hi, by rw [heq, hleft]; rfl⟩
      · exact hthrow ⟨by omega, by omega⟩

theorem lazy_readers_agree_zeros :
    ∃ i : Cpp.Iterator .double,
      ((⟨envelope .double 3 (List.replicate 17 0), 3⟩ : Cpp.BasicDecompressor .double).begin maskedShl >>=
        fun i => i.advance maskedShl 3) = .ok i ∧ i.eq {} = true := by
  have hit : Rust.Decompressor.iter (T := .double) ⟨envelope .double 3 (List.replicate 17 0), 3⟩ =
      .ok ⟨ValueType.double.openStream (some (List.replicate 17 0)), 3⟩ := by decide +kernel
  have hr : Cpp.BasicDecompressor.new .double (envelope .double 3 (List.replicate 17 0)) =
      .ok ⟨envelope .double 3 (List.replicate 17 0), 3⟩ := by decide +kernel
  have hs : Rust.Decompressor.new .double (envelope .double 3 (List.replicate 17 0)) =
      .ok ⟨envelope .double 3 (List.replicate 17 0), 3⟩ := by decide +kernel
  exact (lazy_readers_agree maskedShl hr hs hit 3).2.1 (by decide +kernel) (by decide +kernel)

end Gorillats
