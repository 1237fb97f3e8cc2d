import Gorillats.Capacity
/-!
# Decoded — what a decompressor answers on any bytes

A delta-of-delta comes out of a signed field of at most 32 bits, so every point read fits the code that wrote none of
it: the points decoded from any bytes compress and decode to themselves.  A point takes at least two bits, the first one
its whole value and a bit more.
-/
namespace Gorillats

open BitString BitParser

variable (ub : U64 → Int → U64) {T : ValueType}

/-! ## What a point takes -/

theorem takes_field64 {n : Nat} (hn : n ≤ 64) : Takes (field64 n) n fun v => v.toNat < 2 ^ n := by
  refine (takes_field n).map _ fun v hv => ?_
  rwa [toNat_ofNat_of_lt hn hv]

theorem inRange_gtSignExtend {v : U64} {n : Nat} (h0 : 0 < n) (hn : n ≤ 32) (hv : v.toNat < 2 ^ n) :
    InRange (gtSignExtend v n) := by
  have hfield := gtSignExtend_field v h0 (show n < 64 by omega)
  rw [Nat.mod_eq_of_lt hv, BitVec.ofNat_toNat, BitVec.setWidth_eq] at hfield
  have hlo := Int.le_bmod (x := v.toInt) (m := 2 ^ n) (Nat.two_pow_pos n)
  have hhi := Int.bmod_lt (x := v.toInt) (m := 2 ^ n) (Nat.two_pow_pos n)
  have hpow : (2 ^ n : Nat) ≤ 2 ^ 32 := Nat.pow_le_pow_right (by decide) hn
  rw [hfield, InRange, toInt_signedLow v (by omega)]
  constructor <;> omega

theorem takes_signed {n : Nat} (h0 : 0 < n) (hn : n ≤ 32) :
    Takes (do return gtSignExtend (← field64 n) n : BitParser I64) 0 InRange :=
  ((takes_field64 (by omega)).bind fun _ hv => takes_pure (inRange_gtSignExtend h0 hn hv)).mono (Nat.zero_le _)
    fun _ h => h

/-- **Every delta-of-delta read fits 32 bits.** -/
theorem takes_dodParser : Takes dodParser 1 InRange := by
  have hbit : ∀ {p : Bool → BitParser I64}, (∀ b, Takes (p b) 0 InRange) → Takes (bit >>= p) 0 InRange := by
    intro p hp
    exact (takes_bit.bind fun b _ => hp b).mono (Nat.zero_le _) fun _ h => h
  refine takes_bit.bind fun b _ => .ite (fun _ => takes_pure (by decide)) fun _ => ?_
  refine hbit fun b => .ite (fun _ => takes_signed (by decide) (by decide)) fun _ => ?_
  refine hbit fun b => .ite (fun _ => takes_signed (by decide) (by decide)) fun _ => ?_
  exact hbit fun b => .ite (fun _ => takes_signed (by decide) (by decide)) fun _ => takes_signed (by decide) (by decide)

theorem takes_tsParser (s : GtTsState) :
    Takes (tsParser s) 1 fun out => InRange (s.dod out.1) ∧ out.2 = s.next out.1 := by
  apply takes_dodParser.map
  intro dod hdod
  have hdelta : s.prevTs + (dod + s.prevDelta) - s.prevTs = dod + s.prevDelta := by
    rw [BitVec.add_comm, BitVec.add_sub_cancel]
  constructor
  · rw [GtTsState.dod, hdelta, BitVec.add_sub_cancel]
    exact hdod
  · rw [GtTsState.next, hdelta]

theorem takes_xorParser (s : GtValState) (width : Nat) :
    Takes (xorParser ub s width) 0 fun out => out.2.hasValue = s.hasValue := by
  have hany : ∀ {n : Nat} {k : U64 → BitParser (U64 × GtValState)},
      (∀ v, Takes (k v) 0 fun out => out.2.hasValue = s.hasValue) →
      Takes (field64 n >>= k) 0 fun out => out.2.hasValue = s.hasValue := by
    intro n k hk
    have hfield : Takes (field64 n) 0 fun _ => True := ((takes_field n).mono (Nat.zero_le n) fun _ h => h).map _
      fun _ _ => trivial
    exact hfield.bind fun v _ => hk v
  refine (takes_bit.bind (n := 0) fun b _ => ?_).mono (Nat.zero_le _) fun _ h => h
  refine .ite (fun _ => ?_) fun _ => ?_
  · exact hany fun _ => takes_pure rfl
  · exact hany fun _ => hany fun _ => hany fun _ => takes_pure rfl

/-- The bits a value takes at least: one, or the whole value if it is the first. -/
def GtValState.least (width : Nat) (s : GtValState) : Nat := if s.hasValue = true then 1 else width

theorem takes_valParser (s : GtValState) {width : Nat} (hw : width ≤ 64) :
    Takes (valParser ub s width) (s.least width) fun out => out.2.hasValue = true := by
  unfold valParser GtValState.least
  cases hv : s.hasValue with
  | false => exact (takes_field64 hw).map _ fun _ _ => rfl
  | true =>
    refine takes_bit.bind (n := 0) fun b _ => .ite (fun _ => takes_pure hv) fun _ => ?_
    exact (takes_xorParser ub s width).map _ fun _ h => h.trans hv

/-- **A point read**: its delta-of-delta fits 32 bits, the timestamp state is the one after it, and it took a bit for the
timestamp and at least one for the value. -/
theorem takes_pointParser (st : CoderState) :
    Takes (pointParser ub T st) (1 + st.vs.least T.width) fun out =>
      InRange (st.ts.dod out.1.1) ∧ out.2.ts = st.ts.next out.1.1 ∧ out.2.vs.hasValue = true := by
  refine (takes_tsParser st.ts).bind fun t ht => ?_
  exact (takes_valParser ub st.vs T.width_le).bind (n := 0) fun v hv => takes_pure ⟨ht.1, ht.2, hv⟩

/-! ## A run of next calls -/

theorem decompressEachBy_cons (ub : U64 → Int → U64) (ubs : List (U64 → Int → U64)) (d : Option GorillatsDecompressor) :
    decompressEachBy T (ub :: ubs) d =
      ((T.next ub d).1 :: (decompressEachBy T ubs (T.next ub d).2).1, (decompressEachBy T ubs (T.next ub d).2).2) := rfl

theorem decompressEachBy_append : ∀ (us vs : List (U64 → Int → U64)) (d : Option GorillatsDecompressor),
    decompressEachBy T (us ++ vs) d =
      ((decompressEachBy T us d).1 ++ (decompressEachBy T vs (decompressEachBy T us d).2).1,
        (decompressEachBy T vs (decompressEachBy T us d).2).2)
  | [], _, _ => rfl
  | u :: us, vs, d => by
    rw [List.cons_append, decompressEachBy_cons, decompressEachBy_append us vs, decompressEachBy_cons]
    rfl

theorem length_decompressEachBy : ∀ (ubs : List (U64 → Int → U64)) (d : Option GorillatsDecompressor),
    (decompressEachBy T ubs d).1.length = ubs.length
  | [], _ => rfl
  | ub :: ubs, d => by rw [decompressEachBy_cons, List.length_cons, length_decompressEachBy ubs, List.length_cons]

theorem delivered_append (rs rs' : List (Except Status (Point T))) :
    delivered (rs ++ rs') = delivered rs ++ delivered rs' := List.filterMap_append

theorem delivered_map_ok : ∀ pts : List (Point T), delivered (pts.map Except.ok) = pts
  | [] => rfl
  | p :: pts => congrArg (p :: ·) (delivered_map_ok pts)

theorem delivered_replicate_error (rc : Status) : ∀ n : Nat,
    delivered (List.replicate n (Except.error rc : Except Status (Point T))) = []
  | 0 => rfl
  | n + 1 => delivered_replicate_error rc n

theorem Ended.decompressEachBy : ∀ (ubs : List (U64 → Int → U64)) {d : GorillatsDecompressor}, Ended T d →
    (Gorillats.decompressEachBy T ubs (some d)).1 = List.replicate ubs.length (Except.error Status.errEof)
  | [], _, _ => rfl
  | ub :: ubs, d, h => by
    obtain ⟨d', hd, hend⟩ := h.next ub
    rw [decompressEachBy_cons, hd, hend.decompressEachBy ubs]
    rfl

/-- **What the points read in state `st` from `room` bits are like**: their delta-of-deltas fit 32 bits, and each took
two bits at least, the first one its whole value. -/
structure Drained (st : CoderState) (room : Nat) (pts : List (Point T)) : Prop where
  fits : ∀ dod ∈ deltaOfDeltasFrom st.ts.prevTs st.ts.prevDelta (pts.map (·.1)), InRange dod
  room : pts ≠ [] → 1 + st.vs.least T.width + 2 * (pts.length - 1) ≤ room

theorem drained_nil (st : CoderState) (room : Nat) : Drained st room ([] : List (Point T)) :=
  ⟨fun _ h => (List.not_mem_nil h).elim, fun h => (h rfl).elim⟩

theorem Drained.cons {st st' : CoderState} {bits rest : List Bool} {p : Point T} {pts : List (Point T)}
    (hp : (pointParser ub T st).run bits = some ((p, st'), rest)) (h : Drained st' rest.length pts) :
    Drained st bits.length (p :: pts) := by
  obtain ⟨⟨hdod, hts, hval⟩, hle⟩ := takes_pointParser ub st _ _ _ hp
  have hleast : st'.vs.least T.width = 1 := if_pos hval
  constructor
  · rw [List.map_cons, deltaOfDeltasFrom, List.forall_mem_cons]
    have hfits := h.fits
    rw [hts] at hfits
    exact ⟨hdod, hfits⟩
  · intro _
    cases pts with
    | nil => simp only [List.length_singleton]; omega
    | cons q pts =>
      have hroom := h.room (List.cons_ne_nil q pts)
      simp only [List.length_cons] at hroom ⊢
      omega

/-- **Draining a live handle**: points, then the end for good. -/
theorem Live.drain : ∀ (ubs : List (U64 → Int → U64)) {d : GorillatsDecompressor} {st : CoderState} {bits : List Bool},
    Live T d st bits → ∃ pts n, (decompressEachBy T ubs (some d)).1 =
        pts.map Except.ok ++ List.replicate n (Except.error Status.errEof) ∧ Drained st bits.length pts
  | [], _, st, bits, _ => ⟨[], 0, rfl, drained_nil st bits.length⟩
  | ub :: ubs, d, st, bits, h => by
    rw [decompressEachBy_cons]
    cases hp : (pointParser ub T st).run bits with
    | none =>
      obtain ⟨d', hd, hend⟩ := h.next_none ub hp
      refine ⟨[], ubs.length + 1, ?_, drained_nil st bits.length⟩
      rw [hd, hend.decompressEachBy ubs]
      rfl
    | some out =>
      obtain ⟨⟨p, st'⟩, rest⟩ := out
      obtain ⟨d', hd, hlive⟩ := h.next_some ub hp
      obtain ⟨pts, n, hrs, hdrained⟩ := hlive.drain ubs
      refine ⟨p :: pts, n, ?_, hdrained.cons ub hp⟩
      rw [hd, hrs]
      rfl

/-! ## Encoding what was decoded -/

theorem compressEach_of_capacity {buf : List U8} (t0 : I64) {pts : List (Point T)}
    (hcap : 16 * pts.length + 64 ≤ buf.length) :
    ∃ c, compressEach (T.create (some buf) t0) pts = (List.replicate pts.length Status.ok, some c) ∧
      streamBytes (some c) = pack (stream T t0 pts) := by
  have hfit : ∀ {qs : List (Point T)}, qs <+: pts → (stream T t0 qs).length ≤ 8 * buf.length := by
    intro qs hqs
    have hmono := length_stream_mono t0 hqs
    have hle := length_stream_le t0 pts
    have hbits : T.maxPointBits ≤ 113 := by cases T <;> decide
    have := Nat.mul_le_mul_right pts.length hbits
    omega
  obtain ⟨c₀, hc₀, h₀⟩ := encodes_create (T := T) buf t0 (by omega)
  obtain ⟨c, h, hrun⟩ := h₀.compressEach pts
  rw [List.nil_append] at h
  refine ⟨c, ?_, h.streamBytes_of_fits (hfit List.prefix_rfl)⟩
  have hok : ∀ rc ∈ (List.range pts.length).map fun i =>
      if 8 * buf.length < (stream T t0 ([] ++ pts.take (i + 1))).length then Status.errOverflow else .ok, rc = .ok := by
    intro rc hrc
    obtain ⟨i, -, rfl⟩ := List.mem_map.1 hrc
    exact if_neg (Nat.not_lt.2 (hfit (List.take_prefix _ _)))
  have hall := List.eq_replicate_of_mem hok
  rw [List.length_map, List.length_range] at hall
  rw [hc₀, hrun, hall]

/-- **Codewords read back**, whatever the out-of-range shifts would yield: there are none. -/
theorem Live.readBack {ubs : List (U64 → Int → U64)} {pts : List (Point T)} (hlen : ubs.length = pts.length)
    {d : GorillatsDecompressor} {st : CoderState} {rest : List Bool}
    (h : Live T d st ((pointCoder T).codes st pts ++ rest)) (hwin : WinOk T.width st.vs)
    (hok : (pointCoder T).Admits FitsPoint st pts) :
    ∃ d', decompressEachBy T ubs (some d) = (pts.map Except.ok, some d') ∧
      Live T d' ((pointCoder T).after st pts) rest := by
  induction pts generalizing ubs d st with
  | nil =>
    rw [List.eq_nil_of_length_eq_zero hlen]
    exact ⟨d, rfl, h⟩
  | cons p pts ih =>
    cases ubs with
    | nil => cases hlen
    | cons ub ubs =>
      obtain ⟨_, _, rfl, ⟨rfl, hwin'⟩, hp⟩ := same_lockstep ub st st p ⟨rfl, hwin⟩ hok.1
      rw [BitCoder.codes_cons, List.append_assoc] at h
      obtain ⟨d₁, hd, hlive⟩ := h.next_some ub (hp _)
      obtain ⟨d', hds, hlive'⟩ := ih (Nat.succ.inj hlen) hlive hwin' hok.2
      refine ⟨d', ?_, hlive'⟩
      rw [decompressEachBy_cons, hd, hds]
      rfl

/-- **Zero bits read as points whose codewords are zero bits.** -/
theorem Live.drain_zeros : ∀ (ubs : List (U64 → Int → U64)) {d : GorillatsDecompressor} {st : CoderState} {q : Nat},
    Live T d st (List.replicate q false) → (0 < q → st.vs.hasValue = true) → st.vs.prevBits.toNat < 2 ^ T.width →
    ∃ pts n, (decompressEachBy T ubs (some d)).1 = pts.map Except.ok ++ List.replicate n (Except.error Status.errEof) ∧
      ∃ k ≤ q, (pointCoder T).codes st pts = List.replicate k false
  | [], _, _, q, _, _, _ => ⟨[], 0, rfl, 0, Nat.zero_le q, rfl⟩
  | ub :: ubs, d, st, q, h, hv, hb => by
    rw [decompressEachBy_cons]
    by_cases hq : 2 ≤ q
    · -- two bits read as the last point once more
      obtain ⟨q, rfl⟩ := Nat.exists_eq_add_of_le' hq
      have hv' := hv (Nat.succ_pos _)
      obtain ⟨hcode, hnext⟩ := code_repeat (T := T) hv' (T.toBits_ofBits hb)
      obtain ⟨d', hd, hlive⟩ := h.next_some ub (pointParser_zeros ub hv' (List.replicate q false))
      obtain ⟨pts, n, hrs, k, hk, hcodes⟩ := hlive.drain_zeros ubs (fun _ => hv') hb
      refine ⟨(st.ts.prevTs + st.ts.prevDelta, T.ofBits st.vs.prevBits) :: pts, n, ?_, k + 2, by omega, ?_⟩
      · rw [hd, hrs]
        rfl
      · rw [BitCoder.codes_cons, hcode, hnext, hcodes]
        rfl
    · have hnone : (pointParser ub T st).run (List.replicate q false) = none := by
        obtain rfl | rfl : q = 0 ∨ q = 1 := by omega
        · exact pointParser_nil ub st
        · exact pointParser_zero ub (hv Nat.one_pos)
      obtain ⟨d', hd, hend⟩ := h.next_none ub hnone
      refine ⟨[], ubs.length + 1, ?_, 0, Nat.zero_le q, rfl⟩
      rw [hd, hend.decompressEachBy ubs]
      rfl

/-! ## There and back again -/

theorem delivered_answers (pts : List (Point T)) (n : Nat) :
    delivered (pts.map Except.ok ++ List.replicate n (Except.error Status.errEof)) = pts := by
  rw [delivered_append, delivered_map_ok, delivered_replicate_error, List.append_nil]

/-- **Draining any buffer of eight bytes or more.** -/
theorem drain_open {data : List U8} (h8 : 8 ≤ data.length) (ubs : List (U64 → Int → U64)) :
    ∃ pts n, (decompressEachBy T ubs (T.openStream (some data))).1 =
        pts.map Except.ok ++ List.replicate n (Except.error Status.errEof) ∧
      Drained (startState (headerTs data)) (8 * (data.length - 8)) pts := by
  obtain ⟨d, hopen, hlive⟩ := open_header (T := T) h8
  obtain ⟨pts, n, hrs, hdrained⟩ := hlive.drain ubs
  rw [List.length_drop, length_unpack, show 8 * data.length - 64 = 8 * (data.length - 8) by omega] at hdrained
  exact ⟨pts, n, by rw [hopen, hrs], hdrained⟩

theorem unpack_pack_stream (t0 : I64) (pts : List (Point T)) : unpack (pack (stream T t0 pts)) = toBits 64 t0.toNat ++
    ((pointCoder T).codes (startState t0) pts ++ padding (stream T t0 pts)) := by
  rw [unpack_pack, stream, List.append_assoc]

/-- **Draining a packed stream**: its points, then what its padding reads as, which is coded in zero bits again. -/
theorem drain_stream {t0 : I64} {pts : List (Point T)} (hdod : ∀ d ∈ deltaOfDeltas t0 (pts.map (·.1)), InRange d)
    {ubs : List (U64 → Int → U64)} (hlen : pts.length ≤ ubs.length) :
    ∃ more n, (decompressEachBy T ubs (T.openStream (some (pack (stream T t0 pts))))).1 =
        (pts ++ more).map Except.ok ++ List.replicate n (Except.error Status.errEof) ∧
      ∃ k ≤ (padding (stream T t0 pts)).length,
        (pointCoder T).codes ((pointCoder T).after (startState t0) pts) more = List.replicate k false := by
  obtain ⟨d, hopen, hlive⟩ := open_live (T := T) (unpack_pack_stream t0 pts)
  have htake : (ubs.take pts.length).length = pts.length := List.length_take_of_le hlen
  obtain ⟨d₁, hfirst, hlive₁⟩ := hlive.readBack htake (winOk_init _) ((admits_start_iff t0 pts).2 hdod)
  have hpad : padding (stream T t0 pts) = List.replicate (padding (stream T t0 pts)).length false := by
    rw [padding, List.length_replicate]
  rw [hpad] at hlive₁
  have hstate : (0 < (padding (stream T t0 pts)).length →
        ((pointCoder T).after (startState t0) pts).vs.hasValue = true) ∧
      ((pointCoder T).after (startState t0) pts).vs.prevBits.toNat < 2 ^ T.width := by
    by_cases hnil : pts = []
    · subst hnil
      refine ⟨fun hpos => ?_, Nat.two_pow_pos _⟩
      -- a bare header fills its bytes
      rw [padding, List.length_replicate, length_stream] at hpos
      simp at hpos
    · obtain ⟨hv, hb⟩ := after_vs t0 hnil
      exact ⟨fun _ => hv, by rw [hb]; exact T.toBits_lt _⟩
  obtain ⟨more, n, hrest, k, hk, hcodes⟩ := hlive₁.drain_zeros (ubs.drop pts.length) hstate.1 hstate.2
  refine ⟨more, n, ?_, k, hk, hcodes⟩
  rw [hopen, ← List.take_append_drop pts.length ubs, decompressEachBy_append, hfirst, hrest, List.map_append,
    List.append_assoc]

section Packed

variable {t0 : I64} {pts : List (Point T)} (hdod : ∀ d ∈ deltaOfDeltas t0 (pts.map (·.1)), InRange d)
  {ubs : List (U64 → Int → U64)}

include hdod

theorem decompress_pack_stream (hlen : ubs.length = pts.length) :
    (decompressEachBy T ubs (T.openStream (some (pack (stream T t0 pts))))).1 = pts.map Except.ok := by
  obtain ⟨more, n, hrs, -⟩ := drain_stream hdod (Nat.le_of_eq hlen.symm)
  have hcount := congrArg List.length hrs
  rw [length_decompressEachBy, List.length_append, List.length_map, List.length_append, List.length_replicate] at hcount
  obtain rfl : more = [] := List.eq_nil_of_length_eq_zero (by omega)
  obtain rfl : n = 0 := by omega
  rw [hrs, List.append_nil]
  exact List.append_nil _

/-- **A packed stream is its own re-encoding**: the points its padding reads as only fill the padding. -/
theorem reencode_pack_stream {m : Nat} (hle : pts.length ≤ m)
    (hm : m ≤ (delivered (decompressEachBy T ubs (T.openStream (some (pack (stream T t0 pts))))).1).length)
    {buf : List U8} (hcap : 16 * m + 64 ≤ buf.length) :
    streamBytes (compressEach (T.create (some buf) t0)
      ((delivered (decompressEachBy T ubs (T.openStream (some (pack (stream T t0 pts))))).1).take m)).2 =
        pack (stream T t0 pts) := by
  have hlen : pts.length ≤ ubs.length := by
    rw [← length_decompressEachBy (T := T) ubs (T.openStream (some (pack (stream T t0 pts))))]
    exact Nat.le_trans (Nat.le_trans hle hm) (List.length_filterMap_le _ _)
  obtain ⟨more, n, hrs, k, hk, hcodes⟩ := drain_stream hdod hlen
  rw [hrs, delivered_answers] at hm ⊢
  have hpre := (pointCoder T).codes_isPrefix ((pointCoder T).after (startState t0) pts)
    (List.take_prefix (m - pts.length) more)
  rw [hcodes, List.prefix_replicate_iff] at hpre
  have htake : (pts ++ more).take m = pts ++ more.take (m - pts.length) := by
    rw [List.take_append, List.take_of_length_le hle]
  have hcap' : 16 * ((pts ++ more).take m).length + 64 ≤ buf.length := by
    rw [List.length_take]
    omega
  obtain ⟨c, hrun, hbytes⟩ := compressEach_of_capacity t0 hcap'
  rw [hrun, hbytes, htake, stream_append, hpre.2, pack_append_zeros _ (Nat.le_trans hpre.1 hk)]

end Packed

/-- **Everything the decoder produces, the encoder represents.**  The first `m` points decoded from any bytes compress
into `16 * m + 64` bytes, decode from there to themselves, and the new stream is its own re-encoding, whether or not the
points its padding reads as are taken along. -/
theorem decoded_reencodes {data : List U8} (h8 : 8 ≤ data.length) (ubs : List (U64 → Int → U64)) {m : Nat}
    (hm : m ≤ (delivered (decompressEachBy T ubs (T.openStream (some data))).1).length) {buf : List U8}
    (hcap : 16 * m + 64 ≤ buf.length) :
    let pts := (delivered (decompressEachBy T ubs (T.openStream (some data))).1).take m
    let run := compressEach (T.create (some buf) (headerTs data)) pts
    run.1 = List.replicate m Status.ok ∧
      (∀ ubs', ubs'.length = m →
        (decompressEachBy T ubs' (T.openStream (some (streamBytes run.2)))).1 = pts.map Except.ok) ∧
      headerTs (streamBytes run.2) = headerTs data ∧
      ∀ ubs' m', m ≤ m' →
        m' ≤ (delivered (decompressEachBy T ubs' (T.openStream (some (streamBytes run.2)))).1).length →
        ∀ buf' : List U8, 16 * m' + 64 ≤ buf'.length →
          streamBytes (compressEach (T.create (some buf') (headerTs (streamBytes run.2)))
            ((delivered (decompressEachBy T ubs' (T.openStream (some (streamBytes run.2)))).1).take m')).2 =
            streamBytes run.2 := by
  obtain ⟨all, n, hrs, hdrained⟩ := drain_open (T := T) h8 ubs
  rw [hrs, delivered_answers] at hm ⊢
  have hlen : (all.take m).length = m := List.length_take_of_le hm
  have hdod : ∀ d ∈ deltaOfDeltas (headerTs data) ((all.take m).map (·.1)), InRange d := by
    rw [← admits_start_iff]
    exact (pointCoder T).admits_of_isPrefix FitsPoint (List.take_prefix m all) ((admits_start_iff _ all).2 hdrained.fits)
  generalize headerTs data = t0 at hdod ⊢
  generalize all.take m = pts at hlen hdod ⊢
  subst hlen
  obtain ⟨c, hrun, hbytes⟩ := compressEach_of_capacity t0 hcap
  intro qs run
  have hrun' : run = (List.replicate pts.length Status.ok, some c) := hrun
  have hstream : streamBytes run.2 = pack (stream T t0 pts) := by rw [hrun', hbytes]
  have hheader : headerTs (streamBytes run.2) = t0 := by
    rw [hstream]
    exact headerTs_of_unpack (unpack_pack_stream t0 pts)
  rw [hheader, hstream]
  exact ⟨by rw [hrun'], fun _ => decompress_pack_stream hdod, rfl,
    fun _ _ hle hm' _ hcap' => reencode_pack_stream hdod hle hm' hcap'⟩

theorem decoded_reencodes_garbage :
    let ubs := [maskedShl, fun _ _ => 0, maskedShl, maskedShl]
    let pts := (delivered (decompressEachBy .float ubs
      (ValueType.float.openStream (some (List.replicate 24 0xA7)))).1).take 3
    let run := compressEach (ValueType.float.create (some (List.replicate 112 0xFF))
      (headerTs (List.replicate 24 0xA7))) pts
    run.1 = List.replicate 3 Status.ok ∧
      (∀ ubs', ubs'.length = 3 →
        (decompressEachBy .float ubs' (ValueType.float.openStream (some (streamBytes run.2)))).1 = pts.map Except.ok) ∧
      headerTs (streamBytes run.2) = headerTs (List.replicate 24 0xA7) ∧
      ∀ ubs' m', 3 ≤ m' →
        m' ≤ (delivered (decompressEachBy .float ubs'
          (ValueType.float.openStream (some (streamBytes run.2)))).1).length →
        ∀ buf' : List U8, 16 * m' + 64 ≤ buf'.length →
          streamBytes (compressEach (ValueType.float.create (some buf') (headerTs (streamBytes run.2)))
            ((delivered (decompressEachBy .float ubs'
              (ValueType.float.openStream (some (streamBytes run.2)))).1).take m')).2 = streamBytes run.2 := by
  have hm : 3 ≤ (delivered (decompressEachBy .float [maskedShl, fun _ _ => 0, maskedShl, maskedShl]
      (ValueType.float.openStream (some (List.replicate 24 0xA7)))).1).length := by decide +kernel
  have hcap : 16 * 3 + 64 ≤ (List.replicate 112 (0xFF : U8)).length := by decide
  exact decoded_reencodes (by decide) _ hm hcap

end Gorillats
