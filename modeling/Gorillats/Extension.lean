import Gorillats.ReadPaths
/-!
# Extension — bytes that follow

A parser answers from the bits it consumes, so bytes added behind any buffer change no point it delivered before: they
can only add points after them.  So a call that succeeded on the shorter buffer answers the same on the longer one.
-/
namespace Gorillats

open BitString BitParser

variable (ub : U64 → Int → U64) {T : ValueType}

/-! ## The core -/

/-- **What a longer buffer delivers** starts with what the shorter one did. -/
theorem exists_delivers_append {data : List U8} (h8 : 8 ≤ data.length) (more : List U8) :
    ∃ L tail : List (Point T), Delivers ub (T.openStream (some data)) L ∧
      Delivers ub (T.openStream (some (data ++ more))) (L ++ tail) := by
  obtain ⟨d, hopen, hlive⟩ := open_header (T := T) h8
  obtain ⟨L, st, rest, hrun, hnone⟩ := exists_run ub _ _ ((unpack data).drop 64) (Nat.le_refl _)
  obtain ⟨tail, st', rest', hrun', hnone'⟩ := exists_run (T := T) ub _ st (rest ++ unpack more) (Nat.le_refl _)
  have h8' : 8 ≤ (data ++ more).length := by
    rw [List.length_append]
    omega
  obtain ⟨d', hopen', hlive'⟩ := open_header (T := T) h8'
  have hheader : headerTs (data ++ more) = headerTs data := by
    rw [headerTs, headerTs, List.take_append_of_le_length h8]
  rw [hheader, unpack_append, List.drop_append_of_le_length (by rw [length_unpack]; omega)] at hlive'
  refine ⟨L, tail, ?_, ?_⟩
  · rw [hopen]
    exact hlive.delivers ub hrun hnone
  · rw [hopen']
    exact hlive'.delivers ub ((hrun.append_rest (local_pointParser ub) (unpack more)).append hrun') hnone'

theorem popEach_append : ∀ (calls : List DecodeCall) (L tail : List (Point T)),
    List.Forall₂ (fun r r' => r.2 <+: r'.2 ∧ (r.1 = .ok → r' = r)) (popEach L calls) (popEach (L ++ tail) calls)
  | [], _, _ => .nil
  | call :: calls, L, tail => by
    rw [popEach, popEach]
    by_cases hle : call.size ≤ L.length
    · rw [List.drop_append_of_le_length hle, List.take_append_of_le_length hle, if_pos hle,
        if_pos (by rw [List.length_append]; omega)]
      exact .cons ⟨List.prefix_refl _, fun _ => rfl⟩ (popEach_append calls _ tail)
    · -- the shorter queue is empty from here on
      rw [if_neg hle, List.drop_eq_nil_of_le (by omega), List.take_of_length_le (by omega)]
      have hpre : L <+: (L ++ tail).take call.size := List.prefix_take_iff.2 ⟨List.prefix_append _ _, by omega⟩
      exact .cons ⟨hpre, fun h => by cases h⟩ (popEach_append calls [] ((L ++ tail).drop call.size))

/-- A handle that is `NULL` answers argument errors. -/
theorem runDecodeCalls_none : ∀ calls : List DecodeCall,
    runDecodeCalls ub T none calls = (calls.map fun _ => (.errArg, []), none)
  | [] => rfl
  | call :: calls => by
    have hcall : call.run ub T none = ((.errArg, []), none) := by
      cases call with
      | next => rw [DecodeCall.run, T.next_eq]; rfl
      | batch n => rw [DecodeCall.run, T.decodeBatch_eq]; rfl
    rw [runDecodeCalls, hcall]
    simp only
    rw [runDecodeCalls_none calls]
    rfl

/-- **Bytes that follow change no answer that was `GORILLATS_OK`**, on any bytes and for any calls, and every call
delivers at least the points it did. -/
theorem longer_buffer_answers (data more : List U8) (calls : List DecodeCall) :
    List.Forall₂ (fun r r' => r.2 <+: r'.2 ∧ (r.1 = .ok → r' = r))
      (runDecodeCalls ub T (T.openStream (some data)) calls).1
      (runDecodeCalls ub T (T.openStream (some (data ++ more))) calls).1 := by
  rcases Nat.lt_or_ge data.length 8 with hlt | h8
  · rw [openStream_of_lt hlt, runDecodeCalls_none]
    have hlen : ∀ (calls : List DecodeCall) (d : Option GorillatsDecompressor),
        List.Forall₂ (fun r r' => r.2 <+: r'.2 ∧ (r.1 = .ok → r' = r))
          (calls.map fun _ => ((Status.errArg, []) : Status × List (Point T))) (runDecodeCalls ub T d calls).1 := by
      intro calls
      induction calls with
      | nil => exact fun _ => .nil
      | cons call calls ih => exact fun d => .cons ⟨List.nil_prefix, fun h => by cases h⟩ (ih _)
    exact hlen calls _
  · obtain ⟨L, tail, hL, hL'⟩ := exists_delivers_append (T := T) ub h8 more
    rw [hL.runDecodeCalls, hL'.runDecodeCalls]
    exact popEach_append calls L tail

/-! ## The wrappers -/

theorem HeaderOk.append {data : List U8} (h : HeaderOk T data) (more : List U8) : HeaderOk T (data ++ more) := by
  have hlen := h.length
  unfold headerSize at hlen
  refine ⟨by rw [List.length_append]; exact Nat.le_trans h.length (Nat.le_add_right _ _), ?_, ?_⟩
  · rw [List.take_append_of_le_length (by omega), h.magic]
  · rw [List.getD_append _ _ _ _ (by omega), h.tag]

theorem getU64Le_append {data : List U8} (h : headerSize ≤ data.length) (more : List U8) :
    getU64Le ((data ++ more).drop 8) = getU64Le (data.drop 8) := by
  unfold headerSize at h
  rw [← getU64Le_take, ← getU64Le_take (data.drop 8), List.drop_append_of_le_length (by omega),
    List.take_append_of_le_length (by rw [List.length_drop]; omega)]

namespace Cpp

theorem headerOk_of_new {data : List U8} {r : BasicDecompressor T} (h : BasicDecompressor.new T data = .ok r) :
    HeaderOk T data := by
  by_contra hno
  obtain ⟨⟨what, hnew⟩, -⟩ := new_of_not_headerOk hno
  rw [hnew] at h
  cases h

end Cpp

namespace Rust

theorem headerOk_of_new {data : List U8} {r : Decompressor T} (h : Decompressor.new T data = .ok r) :
    HeaderOk T data := by
  by_contra hno
  rw [(new_of_not_headerOk hno).2] at h
  cases h

end Rust

/-- **A longer C++ envelope** reads as the shorter one did, where that was read at all. -/
theorem Cpp.longer_reads {data : List U8} {r : BasicDecompressor T} (h : BasicDecompressor.new T data = .ok r)
    (more : List U8) : ∃ r', BasicDecompressor.new T (data ++ more) = .ok r' ∧ r'.size = r.size ∧
      (∀ pts, r.toVector ub = .ok pts → r'.toVector ub = .ok pts) ∧
      ∀ pts, r.decodeInto ub = .ok pts → r'.decodeInto ub = .ok pts := by
  have hok := headerOk_of_new h
  obtain rfl := eq_of_new h
  refine ⟨_, new_of_headerOk (hok.append more), getU64Le_append hok.length more, ?_⟩
  rw [getU64Le_append hok.length more]
  generalize getU64Le (data.drop 8) = count
  by_cases hzero : count = 0
  · obtain ⟨hvec, hinto⟩ := BasicDecompressor.reads_of_zero ub (r := ⟨data, count⟩) hzero
    obtain ⟨hvec', hinto'⟩ := BasicDecompressor.reads_of_zero ub (r := ⟨data ++ more, count⟩) hzero
    rw [hvec, hinto, hvec', hinto']
    exact ⟨fun _ h => h, fun _ h => h⟩
  rcases Nat.lt_or_ge (data.drop headerSize).length 8 with hlt | h8
  · -- the shorter payload does not open
    have hopen : T.openStream (some ((⟨data, count⟩ : BasicDecompressor T).data.drop headerSize)) = none :=
      openStream_of_lt hlt
    rw [BasicDecompressor.decodeInto_of_null ub hopen hzero]
    refine ⟨fun pts hvec => ?_, nofun⟩
    rcases Nat.lt_or_ge (maxLen pointSize) count.toNat with hbig | hfits
    · rw [BasicDecompressor.toVector_of_gt ub (r := ⟨data, count⟩) hbig] at hvec
      cases hvec
    · rw [BasicDecompressor.toVector_of_null ub hopen hzero hfits] at hvec
      cases hvec
  · obtain ⟨L, tail, hL, hL'⟩ := exists_delivers_append (T := T) ub h8 more
    rw [← List.drop_append_of_le_length hok.length] at hL'
    have hkept : count.toNat ≤ L.length →
        count.toNat ≤ (L ++ tail).length ∧ L.take count.toNat = (L ++ tail).take count.toNat :=
      fun hle => ⟨by rw [List.length_append]; omega, (List.take_append_of_le_length hle).symm⟩
    refine ⟨fun pts hvec => ?_, fun pts hinto => ?_⟩
    · obtain ⟨hfits, hle, rfl⟩ := (BasicDecompressor.toVector_eq_ok_iff ub ⟨data, count⟩ hL pts).1 hvec
      exact (BasicDecompressor.toVector_eq_ok_iff ub ⟨data ++ more, count⟩ hL' _).2 ⟨hfits, hkept hle⟩
    · obtain ⟨hle, rfl⟩ := (BasicDecompressor.decodeInto_eq_ok_iff ub ⟨data, count⟩ hL pts).1 hinto
      exact (BasicDecompressor.decodeInto_eq_ok_iff ub ⟨data ++ more, count⟩ hL' _).2 (hkept hle)

/-- **A longer Rust envelope** reads as at least the points the shorter one did, unless that had none under a count that
no vector can have: with a first point to collect, the iterator is refused its vector. -/
theorem Rust.longer_reads {data : List U8} {r : Decompressor T} (h : Decompressor.new T data = .ok r)
    (more : List U8) : ∃ r', Decompressor.new T (data ++ more) = .ok r' ∧ r'.len = r.len ∧
      (∀ pts, r.intoIter ub = .ok pts → (∃ pts', r'.intoIter ub = .ok pts' ∧ pts <+: pts') ∨
        ¬ CountFits data ∧ pts = [] ∧ r'.intoIter ub = .panic "capacity overflow") ∧
      ∀ cols, r.toColumns ub = .ok cols →
        ∃ cols', r'.toColumns ub = .ok cols' ∧ cols.1 <+: cols'.1 ∧ cols.2 <+: cols'.2 := by
  have hok := headerOk_of_new h
  obtain rfl := eq_of_new h
  refine ⟨_, new_of_headerOk (hok.append more), getU64Le_append hok.length more, ?_⟩
  rw [getU64Le_append hok.length more]
  unfold CountFits
  generalize getU64Le (data.drop 8) = count
  rcases Nat.lt_or_ge (data.drop headerSize).length 8 with hlt | h8
  · -- the shorter payload does not open: only `to_columns()` of no points returns
    have hopen : T.openStream (some ((⟨data, count⟩ : Decompressor T).data.drop headerSize)) = none :=
      openStream_of_lt hlt
    rw [Decompressor.intoIter_of_null ub hopen]
    refine ⟨nofun, fun cols hcols => ?_⟩
    by_cases hzero : count = 0
    · rw [Decompressor.toColumns_of_zero ub (r := ⟨data, count⟩) hzero] at hcols
      cases hcols
      exact ⟨_, Decompressor.toColumns_of_zero ub (r := ⟨data ++ more, count⟩) hzero, List.prefix_refl _,
        List.prefix_refl _⟩
    · obtain ⟨msg, hpanic⟩ := Decompressor.toColumns_of_null ub hopen hzero
      rw [hpanic] at hcols
      cases hcols
  · obtain ⟨L, tail, hL, hL'⟩ := exists_delivers_append (T := T) ub h8 more
    rw [← List.drop_append_of_le_length hok.length] at hL'
    have hpre : L.take count.toNat <+: (L ++ tail).take count.toNat := by
      rw [List.take_append]
      exact List.prefix_append _ _
    refine ⟨fun pts hpts => ?_, fun cols hcols => ?_⟩
    · rw [Decompressor.intoIter_of_delivers ub ⟨data, count⟩ hL] at hpts
      rw [Decompressor.intoIter_of_delivers ub ⟨data ++ more, count⟩ hL']
      by_cases hfits : count.toNat ≤ maxLen pointSize
      · rw [if_pos (.inr hfits)] at hpts
        cases hpts
        exact .inl ⟨_, if_pos (.inr hfits), hpre⟩
      · by_cases hnil : L = []
        · rw [if_pos (.inl hnil), hnil, List.take_nil] at hpts
          cases hpts
          by_cases hnone : L ++ tail = []
          · exact .inl ⟨_, if_pos (.inl hnone), List.nil_prefix⟩
          · exact .inr ⟨hfits, rfl, if_neg (not_or.2 ⟨hnone, hfits⟩)⟩
        · rw [if_neg (not_or.2 ⟨hnil, hfits⟩)] at hpts
          cases hpts
    · rcases Nat.lt_or_ge (maxLen 8) count.toNat with hbig | hn
      · rw [Decompressor.toColumns_of_gt ub (r := ⟨data, count⟩) hbig] at hcols
        cases hcols
      · rw [Decompressor.toColumns_of_delivers ub ⟨data, count⟩ hL hn] at hcols
        cases hcols
        exact ⟨_, Decompressor.toColumns_of_delivers ub ⟨data ++ more, count⟩ hL' hn, hpre.map _, hpre.map _⟩

/-- **Bytes behind an envelope change no point that was read**, whatever the bytes are: every reader accepts the longer
one and records the same count, the C++ paths return what they returned, the Rust paths that and possibly more.  Only
where the recorded count is one that no vector can have, and the Rust iterator had no point to return, may a first point
make it panic. -/
theorem longer_envelope_reads (T : ValueType) (data more : List U8) :
    (∀ r : Cpp.BasicDecompressor T, Cpp.BasicDecompressor.new T data = .ok r →
      ∃ r', Cpp.BasicDecompressor.new T (data ++ more) = .ok r' ∧ r'.size = r.size ∧
        (∀ pts, r.toVector ub = .ok pts → r'.toVector ub = .ok pts) ∧
        ∀ pts, r.decodeInto ub = .ok pts → r'.decodeInto ub = .ok pts) ∧
    ∀ r : Rust.Decompressor T, Rust.Decompressor.new T data = .ok r →
      ∃ r', Rust.Decompressor.new T (data ++ more) = .ok r' ∧ r'.len = r.len ∧
        (∀ pts, r.intoIter ub = .ok pts → (∃ pts', r'.intoIter ub = .ok pts' ∧ pts <+: pts') ∨
          ¬ CountFits data ∧ pts = [] ∧ r'.intoIter ub = .panic "capacity overflow") ∧
        ∀ cols, r.toColumns ub = .ok cols →
          ∃ cols', r'.toColumns ub = .ok cols' ∧ cols.1 <+: cols'.1 ∧ cols.2 <+: cols'.2 :=
  ⟨fun _ h => Cpp.longer_reads ub h more, fun _ h => Rust.longer_reads ub h more⟩

/-- Another byte behind three points, and a first point behind a stream that holds none of 2^61. -/
theorem longer_envelope_reads_padded :
    let large : U64 := 0x2000000000000000
    (∃ r', Cpp.BasicDecompressor.new .double (envelope .double 3 (List.replicate 17 0) ++ [0x80]) = .ok r' ∧
      r'.toVector maskedShl = .ok [(0, 0), (0, 0), (0, 0)]) ∧
    ∃ r', Rust.Decompressor.new .double (envelope .double large (List.replicate 8 0) ++ List.replicate 9 0) = .ok r' ∧
      ((∃ pts', r'.intoIter maskedShl = .ok pts' ∧ [] <+: pts') ∨
        ¬ CountFits (envelope .double large (List.replicate 8 0)) ∧ r'.intoIter maskedShl = .panic "capacity overflow") := by
  intro large
  obtain ⟨r', hnew, -, hvec, -⟩ := (longer_envelope_reads maskedShl .double (envelope .double 3 (List.replicate 17 0))
    [0x80]).1 ⟨envelope .double 3 (List.replicate 17 0), 3⟩ (by decide +kernel)
  obtain ⟨s', hnew', -, hinto, -⟩ := (longer_envelope_reads maskedShl .double (envelope .double large (List.replicate 8 0))
    (List.replicate 9 0)).2 ⟨envelope .double large (List.replicate 8 0), large⟩ (by decide +kernel)
  refine ⟨⟨r', hnew, hvec _ (by decide +kernel)⟩, s', hnew', ?_⟩
  exact (hinto [] (by decide +kernel)).imp_right fun h => ⟨h.1, h.2.2⟩

end Gorillats
