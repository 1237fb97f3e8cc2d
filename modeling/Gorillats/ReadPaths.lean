import Gorillats.Readers
/-!
# ReadPaths — the iterator and the bulk path of one wrapper

Both paths take the recorded number of points off the payload's queue.  Where the payload is too short to open, the C++
paths report a truncated stream if a point is recorded; the Rust iterator panics whatever is recorded, the Rust bulk
path only if a point is.  They also check a large count at different places: the iterator collects points of sixteen
bytes and makes its vector at the first one, the bulk path makes columns of eight bytes before it opens the payload.
-/
namespace Gorillats

variable (ub : U64 → Int → U64) {T : ValueType}

theorem openStream_of_lt {payload : List U8} (h : payload.length < 8) : T.openStream (some payload) = none := by
  rw [T.open_eq, gtDecompressorCreate, if_pos h]

theorem toNat_pos_of_ne {count : U64} (h : count ≠ 0) : 0 < count.toNat := by
  rw [Nat.pos_iff_ne_zero, Ne, ← BitVec.toNat_zero, BitVec.toNat_inj]
  exact h

/-! ## C++ -/

namespace Cpp

theorem eq_of_new {data : List U8} {r : BasicDecompressor T} (h : BasicDecompressor.new T data = .ok r) :
    r = { data := data, count := getU64Le (data.drop 8) } := by
  by_cases hh : HeaderOk T data
  · rw [new_of_headerOk hh] at h
    exact (Except.ok.inj h).symm
  · obtain ⟨⟨what, hnew⟩, -⟩ := new_of_not_headerOk hh
    rw [hnew] at h
    cases h

theorem BasicDecompressor.reads_of_zero {r : BasicDecompressor T} (h : r.count = 0) :
    r.toVector ub = .ok [] ∧ r.decodeInto ub = .ok [] := by
  unfold toVector begin Iterator.new decodeInto
  rw [h]
  exact ⟨rfl, rfl⟩

section NullHandle

variable {r : BasicDecompressor T} (hopen : T.openStream (some (r.data.drop headerSize)) = none)
  (hcount : r.count ≠ 0)

include hopen hcount

/-- The null handle answers an argument error, which the iterator reports as truncation. -/
theorem BasicDecompressor.toVector_of_null (hn : r.count.toNat ≤ maxLen pointSize) :
    r.toVector ub = .error (.runtimeError "gorillats: truncated stream") := by
  rw [toVector_of_le ub hn]
  unfold begin Iterator.new
  rw [if_pos (toNat_pos_of_ne hcount), hopen, Iterator.fetch, T.next_eq]
  rfl

theorem BasicDecompressor.decodeInto_of_null :
    r.decodeInto ub = .error (.runtimeError "gorillats: truncated stream") := by
  have hpos := toNat_pos_of_ne hcount
  unfold decodeInto
  rw [if_neg hcount, hopen, T.decodeBatch_eq, decompressBatchWidth]
  simp [Nat.ne_of_lt hpos]

end NullHandle

/-- `decode_into` writes the recorded number of points, or throws. -/
theorem length_of_decodeInto {r : BasicDecompressor T} {pts : List (Point T)} (h : r.decodeInto ub = .ok pts) :
    pts.length = r.count.toNat := by
  by_cases hcount : r.count = 0
  · unfold BasicDecompressor.decodeInto at h
    rw [if_pos hcount] at h
    cases h
    rw [hcount]
    rfl
  · rcases Nat.lt_or_ge (r.data.drop headerSize).length 8 with hlt | h8
    · rw [BasicDecompressor.decodeInto_of_null ub (openStream_of_lt hlt) hcount] at h
      cases h
    · obtain ⟨L, hL⟩ := exists_delivers (T := T) ub h8
      rw [BasicDecompressor.decodeInto_of_delivers ub r hL] at h
      by_cases hle : r.count.toNat ≤ L.length
      · rw [if_pos hle] at h
        cases h
        rw [List.length_take, Nat.min_eq_left hle]
      · rw [if_neg hle] at h
        cases h

/-- **The C++ read paths agree on every accepted input** whose count a vector can have: both throw, or both return the
recorded number of points, the same ones. -/
theorem read_paths_agree {data : List U8} {r : BasicDecompressor T} (h : BasicDecompressor.new T data = .ok r)
    (hfits : CountFits data) :
    (∃ what, r.toVector ub = .error (.runtimeError what)) ∧ (∃ what, r.decodeInto ub = .error (.runtimeError what)) ∨
      ∃ pts, r.toVector ub = .ok pts ∧ r.decodeInto ub = .ok pts ∧ pts.length = r.size.toNat := by
  obtain rfl := eq_of_new h
  unfold CountFits at hfits
  generalize getU64Le (data.drop 8) = count at hfits ⊢
  by_cases hcount : count = 0
  · -- nothing is recorded, so neither path opens the payload
    obtain ⟨hvec, hinto⟩ := BasicDecompressor.reads_of_zero ub (r := ⟨data, count⟩) hcount
    refine .inr ⟨[], hvec, hinto, ?_⟩
    rw [BasicDecompressor.size, hcount]
    rfl
  rcases Nat.lt_or_ge (data.drop headerSize).length 8 with hlt | h8
  · have hopen : T.openStream (some ((⟨data, count⟩ : BasicDecompressor T).data.drop headerSize)) = none :=
      openStream_of_lt hlt
    exact .inl ⟨⟨_, BasicDecompressor.toVector_of_null ub hopen hcount hfits⟩,
      ⟨_, BasicDecompressor.decodeInto_of_null ub hopen hcount⟩⟩
  · obtain ⟨L, hL⟩ := exists_delivers (T := T) ub h8
    have hvec := BasicDecompressor.toVector_of_delivers ub ⟨data, count⟩ hL hfits
    have hinto := BasicDecompressor.decodeInto_of_delivers ub ⟨data, count⟩ hL
    rw [hvec, hinto]
    by_cases hle : count.toNat ≤ L.length
    · right
      refine ⟨_, if_pos hle, if_pos hle, ?_⟩
      rw [List.length_take, Nat.min_eq_left hle]
      rfl
    · left
      rw [if_neg hle]
      exact ⟨⟨_, rfl⟩, ⟨_, rfl⟩⟩

theorem read_paths_agree_padded :
    let r : BasicDecompressor .double := ⟨envelope .double 3 (List.replicate 17 0), 3⟩
    (∃ what, r.toVector maskedShl = .error (.runtimeError what)) ∧
        (∃ what, r.decodeInto maskedShl = .error (.runtimeError what)) ∨
      ∃ pts, r.toVector maskedShl = .ok pts ∧ r.decodeInto maskedShl = .ok pts ∧ pts.length = r.size.toNat :=
  read_paths_agree maskedShl
    (show BasicDecompressor.new .double (envelope .double 3 (List.replicate 17 0)) = .ok _ by decide +kernel)
    (by decide +kernel)

end Cpp

/-! ## Rust -/

namespace Rust

theorem eq_of_new {data : List U8} {r : Decompressor T} (h : Decompressor.new T data = .ok r) :
    r = { data := data, count := getU64Le (data.drop 8) } := by
  by_cases hh : HeaderOk T data
  · rw [new_of_headerOk hh] at h
    exact (Outcome.ok.inj h).symm
  · rw [(new_of_not_headerOk hh).2] at h
    cases h

/-- `iter().collect()`. -/
def Decompressor.iterCollect (r : Decompressor T) : Outcome (List (Point T)) :=
  (r.iter).bind fun it => it.collect ub

/-- The columns of `to_columns()`, zipped. -/
def Decompressor.zippedColumns (r : Decompressor T) : Outcome (List (Point T)) :=
  (r.toColumns ub).bind fun columns => .ok (columns.1.zip columns.2)

/-- The three read paths come to the same: all return the same points, or all panic. -/
def PathsAgree (r : Decompressor T) : Prop :=
  (∃ pts, r.iterCollect ub = .ok pts ∧ r.intoIter ub = .ok pts ∧ r.zippedColumns ub = .ok pts) ∨
  (∃ msg, r.iterCollect ub = .panic msg) ∧ (∃ msg, r.intoIter ub = .panic msg) ∧
    ∃ msg, r.zippedColumns ub = .panic msg

section NullHandle

variable {r : Decompressor T} (hopen : T.openStream (some (r.data.drop headerSize)) = none)

include hopen

/-- The iterator asserts its handle, whatever is recorded. -/
theorem Decompressor.iter_of_null : r.iter = .panic "gorillats: allocation failed" := by
  unfold iter
  simp only [hopen]

theorem Decompressor.iterCollect_of_null : r.iterCollect ub = .panic "gorillats: allocation failed" := by
  rw [iterCollect, iter_of_null hopen]
  rfl

theorem Decompressor.intoIter_of_null : r.intoIter ub = .panic "gorillats: allocation failed" := by
  rw [intoIter, iter_of_null hopen]
  rfl

/-- The bulk path asserts it only if a point is recorded. -/
theorem Decompressor.toColumns_of_null (hcount : r.count ≠ 0) : ∃ msg, r.toColumns ub = .panic msg := by
  by_cases hn : maxLen 8 < r.count.toNat
  · exact ⟨_, toColumns_of_gt ub hn⟩
  · unfold toColumns
    simp only [withCapacity, if_neg hn, if_neg (fun h => hn ((maxLen_eight_le_width T).trans_lt h)), Outcome.bind, hopen,
      if_pos (toNat_pos_of_ne hcount)]
    exact ⟨_, rfl⟩

end NullHandle

theorem Decompressor.toColumns_of_zero {r : Decompressor T} (h : r.count = 0) : r.toColumns ub = .ok ([], []) := by
  unfold toColumns
  rw [h]
  rfl

theorem Decompressor.zippedColumns_of_delivers (r : Decompressor T) {L : List (Point T)}
    (h : Delivers ub (T.openStream (some (r.data.drop headerSize))) L) : r.zippedColumns ub =
      if r.count.toNat ≤ maxLen 8 then .ok (L.take r.count.toNat) else .panic "capacity overflow" := by
  by_cases hn : r.count.toNat ≤ maxLen 8
  · rw [zippedColumns, toColumns_of_delivers ub r h hn, if_pos hn]
    exact congrArg Outcome.ok (List.zip_of_prod rfl rfl).symm
  · rw [zippedColumns, toColumns_of_gt ub (Nat.not_le.1 hn), if_neg hn]
    rfl

/-- **When the Rust read paths agree.**  On a payload under eight bytes, when a point is recorded: on a header that
records none the iterator panics and `to_columns()` does not open the stream.  On a payload that opens, when the recorded
count is one that a vector of points can have; on a larger one, when the first point decodes and columns cannot have that
count either, so that all panic, or neither is so and all return no point.  All paths are taken to come to the same bits
where a shift is out of range (one `ub`). -/
theorem read_paths_agree_iff {data : List U8} {r : Decompressor T} (h : Decompressor.new T data = .ok r) :
    PathsAgree ub r ↔
      (data.drop headerSize).length < 8 ∧ getU64Le (data.drop 8) ≠ 0 ∨
      8 ≤ (data.drop headerSize).length ∧
        (CountFits data ∨ (Holds ub T (data.drop headerSize) 1 ↔ maxLen 8 < (getU64Le (data.drop 8)).toNat)) := by
  obtain rfl := eq_of_new h
  unfold CountFits
  generalize getU64Le (data.drop 8) = count
  rcases Nat.lt_or_ge (data.drop headerSize).length 8 with hlt | h8
  · have hopen : T.openStream (some ((⟨data, count⟩ : Decompressor T).data.drop headerSize)) = none :=
      openStream_of_lt hlt
    unfold PathsAgree
    rw [Decompressor.iterCollect_of_null ub hopen, Decompressor.intoIter_of_null ub hopen]
    simp only [hlt, Nat.not_le.2 hlt, true_and, false_and, or_false]
    constructor
    · rintro (⟨_, h, -⟩ | ⟨-, -, _, h⟩) hcount
      · cases h
      · rw [Decompressor.zippedColumns, Decompressor.toColumns_of_zero ub (r := ⟨data, count⟩) hcount] at h
        cases h
    · intro hcount
      obtain ⟨msg, hcols⟩ := Decompressor.toColumns_of_null ub hopen hcount
      rw [Decompressor.zippedColumns, hcols]
      exact .inr ⟨⟨_, rfl⟩, ⟨_, rfl⟩, ⟨msg, rfl⟩⟩
  · obtain ⟨L, hL⟩ := exists_delivers (T := T) ub h8
    have hinto := Decompressor.intoIter_of_delivers ub ⟨data, count⟩ hL
    have hcols := Decompressor.zippedColumns_of_delivers ub ⟨data, count⟩ hL
    have hiter : ∀ r : Decompressor T, r.iterCollect ub = r.intoIter ub := fun _ => rfl
    have hfirst : Holds ub T (data.drop headerSize) 1 ↔ L ≠ [] := by
      rw [holds_iff ub hL, Nat.one_le_iff_ne_zero, Ne, List.length_eq_zero_iff]
    unfold PathsAgree
    rw [hiter, hinto, hcols, hfirst]
    simp only [h8, Nat.not_lt.2 h8, true_and, false_and, false_or]
    by_cases hfits : count.toNat ≤ maxLen pointSize
    · rw [if_pos (.inr hfits), if_pos (hfits.trans maxLen_pointSize_le)]
      exact ⟨fun _ => .inl hfits, fun _ => .inl ⟨_, rfl, rfl, rfl⟩⟩
    · simp only [hfits, or_false, false_or]
      rcases Nat.lt_or_ge (maxLen 8) count.toNat with hbig | hsmall
      · -- the columns are refused: the iterator must have a first point to be refused too
        rw [if_neg (Nat.not_le.2 hbig)]
        by_cases hnil : L = [] <;> simp [hnil, hbig]
      · -- the columns are made: the iterator must have no point to return as many
        rw [if_pos hsmall]
        by_cases hnil : L = [] <;> simp [hnil, Nat.not_lt.2 hsmall]

/-- Two points recorded over three bytes, and 2^61 points over a stream of four and over one of none. -/
theorem read_paths_agree_iff_short :
    let large : U64 := 0x2000000000000000
    let short : List U8 := envelope .float 2 [7, 7, 7]
    let four : List U8 := envelope .double large (List.replicate 17 0)
    let empty : List U8 := envelope .double large (List.replicate 8 0)
    PathsAgree maskedShl (⟨short, 2⟩ : Decompressor .float) ∧
      PathsAgree maskedShl (⟨four, large⟩ : Decompressor .double) ∧
      ¬ PathsAgree maskedShl (⟨empty, large⟩ : Decompressor .double) := by
  intro large short four empty
  have hshort : Decompressor.new .float short = .ok ⟨short, 2⟩ := by decide +kernel
  have hfour : Decompressor.new .double four = .ok ⟨four, large⟩ := by decide +kernel
  have hempty : Decompressor.new .double empty = .ok ⟨empty, large⟩ := by decide +kernel
  refine ⟨(read_paths_agree_iff maskedShl hshort).2 (.inl ⟨by decide, by decide +kernel⟩),
    (read_paths_agree_iff maskedShl hfour).2 (.inr ⟨by decide, .inr ⟨fun _ => by decide +kernel, fun _ => ?_⟩⟩),
    fun h => ?_⟩
  · exact ⟨[(0, 0)], by decide +kernel⟩
  have hfirst : (decompressEach maskedShl .double 1 (ValueType.double.openStream
      (some (empty.drop headerSize)))).1 = [.error .errEof] := by decide +kernel
  rcases (read_paths_agree_iff maskedShl hempty).1 h with ⟨hlt, -⟩ | ⟨-, hfits | hiff⟩
  · exact absurd hlt (by decide)
  · exact absurd hfits (by decide +kernel)
  · obtain ⟨pts, hpts⟩ := hiff.2 (by decide +kernel)
    rw [hfirst] at hpts
    cases pts with
    | nil => cases hpts
    | cons p pts => cases hpts

/-- A bare header that records no point: `iter()` panics, `to_columns()` returns no point. -/
theorem read_paths_differ_on_bare_header :
    let r : Decompressor .double := ⟨envelope .double 0 [], 0⟩
    Decompressor.new .double (envelope .double 0 []) = .ok r ∧
      r.iterCollect maskedShl = .panic "gorillats: allocation failed" ∧
      r.intoIter maskedShl = .panic "gorillats: allocation failed" ∧ r.zippedColumns maskedShl = .ok [] ∧
      ¬ PathsAgree maskedShl r := by
  intro r
  have hiter : r.iterCollect maskedShl = .panic "gorillats: allocation failed" := by decide +kernel
  have hcols : r.zippedColumns maskedShl = .ok [] := by decide +kernel
  refine ⟨by decide +kernel, hiter, by decide +kernel, hcols, ?_⟩
  rintro (⟨_, h, -⟩ | ⟨-, -, _, h⟩)
  · rw [hiter] at h
    cases h
  · rw [hcols] at h
    cases h

end Rust

end Gorillats
