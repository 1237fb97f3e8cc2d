import Gorillats.Cpp
import Gorillats.DecodeChunks
import Gorillats.Rust
/-!
# Readers — the two wrappers on one byte string

Both readers take the recorded number of points off the queue their payload delivers.  They part where the queue is
shorter, and where the payload is too short to open.
-/
namespace Gorillats

variable (ub : U64 → Int → U64) {T : ValueType} {d : Option GorillatsDecompressor} {L : List (Point T)}

/-! ## On a queue -/

namespace Cpp

theorem Iterator.fetch_nil (it : Iterator T) (h : Delivers ub it.dec ([] : List (Point T))) :
    it.fetch ub = .error (.runtimeError "gorillats: truncated stream") := by
  obtain ⟨dec, hd, -⟩ := h.next_nil
  simp only [Iterator.fetch, hd]

theorem Iterator.fetch_cons (it : Iterator T) {p : Point T} (h : Delivers ub it.dec (p :: L)) :
    ∃ dec, it.fetch ub = .ok { it with dec := dec, current := p } ∧ Delivers ub dec L := by
  obtain ⟨dec, hd, hrest⟩ := h.next_cons
  exact ⟨dec, by simp only [Iterator.fetch, hd], hrest⟩

theorem Iterator.drain_of_delivers : ∀ (n : Nat) {it : Iterator T} {L : List (Point T)}, Delivers ub it.dec L →
    it.remaining = n + 1 → it.drain ub (n + 1) =
      if n ≤ L.length then .ok (it.current :: L.take n) else .error (.runtimeError "gorillats: truncated stream")
  | 0, it, L, _, hrem => by
    rw [Iterator.drain, if_neg (by omega), Iterator.incr, hrem]
    rfl
  | n + 1, it, L, h, hrem => by
    rw [Iterator.drain, if_neg (by omega), Iterator.incr, if_pos (by omega)]
    simp only [hrem]
    rw [if_pos (by omega)]
    cases L with
    | nil =>
      rw [Iterator.fetch_nil ub { it with remaining := n + 1 + 1 - 1 } h]
      rfl
    | cons p L =>
      obtain ⟨dec, hfetch, hrest⟩ := Iterator.fetch_cons ub { it with remaining := n + 1 + 1 - 1 } h
      rw [hfetch]
      simp only [bind, Except.bind]
      rw [Iterator.drain_of_delivers n hrest rfl, List.length_cons, List.take_succ_cons]
      by_cases hn : n ≤ L.length
      · rw [if_pos hn, if_pos (Nat.succ_le_succ hn)]
        rfl
      · rw [if_neg hn, if_neg (by omega)]

theorem BasicDecompressor.toVector_of_le {r : BasicDecompressor T} (hn : r.count.toNat ≤ maxLen pointSize) :
    r.toVector ub = r.begin ub >>= fun it => it.drain ub r.count.toNat := by
  unfold toVector reserve
  rw [if_neg (Nat.not_lt.2 hn)]
  rfl

/-- `reserve` refuses the count, whatever the payload. -/
theorem BasicDecompressor.toVector_of_gt {r : BasicDecompressor T} (hn : maxLen pointSize < r.count.toNat) :
    r.toVector ub = .error (.lengthError "vector::reserve") := by
  unfold toVector reserve
  rw [if_pos hn]
  rfl

theorem BasicDecompressor.toVector_of_delivers (r : BasicDecompressor T)
    (h : Delivers ub (T.openStream (some (r.data.drop headerSize))) L) (hn : r.count.toNat ≤ maxLen pointSize) :
    r.toVector ub = if r.count.toNat ≤ L.length then .ok (L.take r.count.toNat)
      else .error (.runtimeError "gorillats: truncated stream") := by
  rw [toVector_of_le ub hn]
  unfold begin Iterator.new
  cases r.count.toNat with
  | zero => simp [bind, Except.bind, Iterator.drain]
  | succ n =>
    rw [if_pos (Nat.succ_pos n)]
    cases L with
    | nil =>
      rw [Iterator.fetch_nil ub ⟨T.openStream (some (r.data.drop headerSize)), (0, 0), n + 1⟩ h]
      rfl
    | cons p L =>
      obtain ⟨dec, hfetch, hrest⟩ :=
        Iterator.fetch_cons ub ⟨T.openStream (some (r.data.drop headerSize)), (0, 0), n + 1⟩ h
      rw [hfetch]
      simp only [bind, Except.bind]
      rw [Iterator.drain_of_delivers ub n hrest rfl, List.length_cons, List.take_succ_cons]
      simp only [Nat.succ_le_succ_iff]

theorem BasicDecompressor.decodeInto_of_delivers (r : BasicDecompressor T)
    (h : Delivers ub (T.openStream (some (r.data.drop headerSize))) L) : r.decodeInto ub =
      if r.count.toNat ≤ L.length then .ok (L.take r.count.toNat)
      else .error (.runtimeError "gorillats: truncated stream") := by
  obtain ⟨d', hd, -⟩ := h.decodeBatch r.count.toNat
  unfold decodeInto
  rw [hd]
  simp only [List.length_take]
  by_cases hz : r.count = 0
  · simp [hz]
  · rw [if_neg hz]
    by_cases hn : r.count.toNat ≤ L.length
    · rw [if_pos hn, if_pos hn, if_neg (by simp)]
    · rw [if_neg hn, if_neg hn, if_pos ⟨by simp, by omega⟩]

theorem BasicDecompressor.toVector_eq_ok_iff (r : BasicDecompressor T)
    (h : Delivers ub (T.openStream (some (r.data.drop headerSize))) L) (pts : List (Point T)) :
    r.toVector ub = .ok pts ↔
      r.count.toNat ≤ maxLen pointSize ∧ r.count.toNat ≤ L.length ∧ pts = L.take r.count.toNat := by
  rcases Nat.lt_or_ge (maxLen pointSize) r.count.toNat with hbig | hfits
  · rw [toVector_of_gt ub hbig]
    exact ⟨nofun, fun h => absurd h.1 (Nat.not_le.2 hbig)⟩
  · rw [r.toVector_of_delivers ub h hfits]
    by_cases hle : r.count.toNat ≤ L.length
    · rw [if_pos hle]
      exact ⟨fun h => ⟨hfits, hle, (Except.ok.inj h).symm⟩, fun h => congrArg Except.ok h.2.2.symm⟩
    · rw [if_neg hle]
      exact ⟨nofun, fun h => absurd h.2.1 hle⟩

theorem BasicDecompressor.decodeInto_eq_ok_iff (r : BasicDecompressor T)
    (h : Delivers ub (T.openStream (some (r.data.drop headerSize))) L) (pts : List (Point T)) :
    r.decodeInto ub = .ok pts ↔ r.count.toNat ≤ L.length ∧ pts = L.take r.count.toNat := by
  rw [r.decodeInto_of_delivers ub h]
  by_cases hle : r.count.toNat ≤ L.length
  · rw [if_pos hle]
    exact ⟨fun h => ⟨hle, (Except.ok.inj h).symm⟩, fun h => congrArg Except.ok h.2.symm⟩
  · rw [if_neg hle]
    exact ⟨nofun, fun h => absurd h.1 hle⟩

end Cpp

namespace Rust

theorem Points.items_of_delivers : ∀ (n : Nat) {it : Points T} {L : List (Point T)}, Delivers ub it.handle L →
    it.remaining = n → it.items ub n = L.take n
  | 0, _, _, _, _ => rfl
  | n + 1, it, L, h, hrem => by
    rw [Points.items, Points.next, if_neg (by omega)]
    cases L with
    | nil =>
      obtain ⟨handle, hd, -⟩ := h.next_nil
      rw [hd]
      rfl
    | cons p L =>
      obtain ⟨handle, hd, hrest⟩ := h.next_cons
      rw [hd]
      simp only
      rw [Points.items_of_delivers n hrest (by simp only [hrem]; omega), List.take_succ_cons]

/-- **A vector is collected** unless there is a first item, and it and those promised after it are too many. -/
theorem Points.collect_of_delivers {it : Points T} (h : Delivers ub it.handle L) : it.collect ub =
    if L = [] ∨ it.remaining ≤ maxLen pointSize then .ok (L.take it.remaining) else .panic "capacity overflow" := by
  obtain ⟨handle, remaining⟩ := it
  unfold collect
  cases remaining with
  | zero =>
    rw [Points.next, if_pos rfl, if_pos (.inr (Nat.zero_le _))]
    rfl
  | succ n =>
    rw [Points.next, if_neg (Nat.succ_ne_zero n)]
    cases L with
    | nil =>
      obtain ⟨handle', hd, -⟩ := h.next_nil
      rw [hd, if_pos (.inl rfl)]
      rfl
    | cons p L =>
      obtain ⟨handle', hd, hrest⟩ := h.next_cons
      rw [hd]
      simp only [sizeHint, withCapacity, Nat.add_sub_cancel]
      rw [Points.items_of_delivers ub n (show Delivers ub (Points.mk handle' n).handle L from hrest) rfl]
      by_cases hn : n + 1 ≤ maxLen pointSize
      · rw [if_neg (Nat.not_lt.2 hn), if_pos (.inr hn)]
        rfl
      · rw [if_pos (Nat.not_le.1 hn), if_neg (not_or.2 ⟨List.cons_ne_nil p L, hn⟩)]
        rfl

theorem Decompressor.intoIter_of_delivers (r : Decompressor T)
    (h : Delivers ub (T.openStream (some (r.data.drop headerSize))) L) : r.intoIter ub =
      if L = [] ∨ r.count.toNat ≤ maxLen pointSize then .ok (L.take r.count.toNat)
      else .panic "capacity overflow" := by
  obtain ⟨g, hg, -⟩ := h.some
  rw [hg] at h
  unfold intoIter iter
  simp only [hg]
  exact Points.collect_of_delivers ub h

theorem Decompressor.intoIter_of_le (r : Decompressor T)
    (h : Delivers ub (T.openStream (some (r.data.drop headerSize))) L) (hn : r.count.toNat ≤ maxLen pointSize) :
    r.intoIter ub = .ok (L.take r.count.toNat) := by
  rw [r.intoIter_of_delivers ub h, if_pos (.inr hn)]

theorem Decompressor.toColumns_of_gt {r : Decompressor T} (hn : maxLen 8 < r.count.toNat) :
    r.toColumns ub = .panic "capacity overflow" := by
  unfold toColumns
  simp only [withCapacity, if_pos hn]
  rfl

theorem Decompressor.toColumns_of_delivers (r : Decompressor T)
    (h : Delivers ub (T.openStream (some (r.data.drop headerSize))) L) (hn : r.count.toNat ≤ maxLen 8) :
    r.toColumns ub = .ok ((L.take r.count.toNat).map (·.1), (L.take r.count.toNat).map (·.2)) := by
  obtain ⟨g, hg, -⟩ := h.some
  rw [hg] at h
  obtain ⟨d', hd, -⟩ := h.decodeBatch r.count.toNat
  unfold toColumns
  simp only [withCapacity, if_neg (Nat.not_lt.2 hn), if_neg (Nat.not_lt.2 (hn.trans (maxLen_eight_le_width T))),
    Outcome.bind, hg, hd]
  by_cases hpos : r.count.toNat > 0
  · rw [if_pos hpos]
  · rw [if_neg hpos, show r.count.toNat = 0 by omega]
    rfl

end Rust

/-! ## On any bytes -/

/-- The constructor, then `to_vector()`. -/
def Cpp.readAll (T : ValueType) (data : List U8) : Except Cpp.Exception (List (Point T)) := do
  let r ← BasicDecompressor.new T data
  r.toVector ub

/-- `Decompressor::new`, then `into_iter()`. -/
def Rust.readAll (T : ValueType) (data : List U8) : Rust.Outcome (List (Point T)) :=
  (Decompressor.new T data).bind fun r => r.intoIter ub

/-- The two readers come to the same: both refuse the header, both deliver the same points, or both report a truncated
stream to the caller. -/
def Agree (cpp : Except Cpp.Exception (List (Point T))) (rust : Rust.Outcome (List (Point T))) : Prop :=
  (∃ what, cpp = .error (.invalidArgument what)) ∧ rust = .err .badHeader ∨
  (∃ pts, cpp = .ok pts ∧ rust = .ok pts) ∨
  cpp = .error (.runtimeError "gorillats: truncated stream") ∧ rust = .err .truncated

/-- The first `n` next calls on the payload succeed. -/
def Holds (T : ValueType) (payload : List U8) (n : Nat) : Prop :=
  ∃ pts : List (Point T), (decompressEach ub T n (T.openStream (some payload))).1 = pts.map Except.ok

theorem holds_iff {payload : List U8} (h : Delivers ub (T.openStream (some payload)) L) (n : Nat) :
    Holds ub T payload n ↔ n ≤ L.length := by
  constructor
  · rintro ⟨pts, hpts⟩
    exact (h.eq_take hpts).1
  · intro hle
    refine ⟨L.take n, ?_⟩
    rw [h n, List.take_append_of_le_length (by rwa [List.length_map]), List.map_take]

theorem Cpp.new_of_headerOk {data : List U8} (h : HeaderOk T data) :
    BasicDecompressor.new T data = .ok { data := data, count := getU64Le (data.drop 8) } := by
  unfold BasicDecompressor.new
  rw [kMagic_eq, tag_eq, if_neg (not_or.2 ⟨Nat.not_lt.2 h.length, not_not.2 h.magic⟩),
    if_neg (not_not.2 h.tag)]

theorem getU64Le_take (p : List U8) : getU64Le (p.take 8) = getU64Le p := by
  refine BitVec.eq_of_getLsbD_eq fun j hj => ?_
  rw [getLsbD_getU64Le _ hj, getLsbD_getU64Le _ hj, List.getD_eq_getElem?_getD, List.getD_eq_getElem?_getD,
    List.getElem?_take_of_lt (by omega)]

theorem Rust.new_of_headerOk {data : List U8} (h : HeaderOk T data) :
    Decompressor.new T data = .ok { data := data, count := getU64Le (data.drop 8) } := by
  unfold Decompressor.new
  rw [magic_eq, tag_eq, if_neg (not_or.2 ⟨Nat.not_lt.2 h.length, not_not.2 h.magic⟩),
    if_neg (not_not.2 h.tag),
    fromLeBytes_eq, getU64Le_take]

theorem Cpp.new_envelope (T : ValueType) (count : U64) (payload : List U8) :
    BasicDecompressor.new T (envelope T count payload) = .ok { data := envelope T count payload, count := count } := by
  rw [new_of_headerOk (headerOk_envelope T count payload), count_envelope]

theorem Rust.new_envelope (T : ValueType) (count : U64) (payload : List U8) :
    Decompressor.new T (envelope T count payload) = .ok { data := envelope T count payload, count := count } := by
  rw [new_of_headerOk (headerOk_envelope T count payload), count_envelope]

theorem new_of_not_headerOk {data : List U8} (h : ¬ HeaderOk T data) :
    (∃ what, Cpp.BasicDecompressor.new T data = .error (.invalidArgument what)) ∧
      Rust.Decompressor.new T data = .err .badHeader := by
  unfold Cpp.BasicDecompressor.new Rust.Decompressor.new
  rw [Cpp.kMagic_eq, Cpp.tag_eq, Rust.magic_eq, Rust.tag_eq]
  by_cases hmagic : data.length < headerSize ∨ data.take 4 ≠ magic
  · rw [if_pos hmagic, if_pos hmagic]
    exact ⟨⟨_, rfl⟩, rfl⟩
  · rw [if_neg hmagic, if_neg hmagic]
    have htag : data.getD 4 0 ≠ T.tag := by
      intro htag
      simp only [not_or, Nat.not_lt, ne_eq, not_not] at hmagic
      exact h ⟨hmagic.1, hmagic.2, htag⟩
    rw [if_pos htag, if_pos htag]
    exact ⟨⟨_, rfl⟩, rfl⟩

/-- On a larger count they never do: the C++ reader cannot reserve. -/
theorem not_agree_of_not_countFits {data : List U8} (hh : HeaderOk T data) (hno : ¬ CountFits data) :
    ¬ Agree (Cpp.readAll ub T data) (Rust.readAll ub T data) := by
  have hcpp : Cpp.readAll ub T data = .error (.lengthError "vector::reserve") := by
    unfold Cpp.readAll
    rw [Cpp.new_of_headerOk hh]
    exact Cpp.BasicDecompressor.toVector_of_gt ub (r := ⟨data, getU64Le (data.drop 8)⟩) (Nat.not_le.1 hno)
  rw [hcpp]
  rintro (⟨⟨_, h⟩, -⟩ | ⟨_, h, -⟩ | ⟨h, -⟩) <;> cases h

end Gorillats
