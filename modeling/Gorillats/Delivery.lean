import Gorillats.Stream
/-!
# Delivery — the decompressor repeats the point parser

`Live T d st bits`: the handle has met no end, its coding state is `st` and `bits` are still to come.  A next call
then answers what `pointParser` answers, and where the parser fails the handle is `Ended` and answers
`GORILLATS_ERR_EOF` from then on, whatever half of a point it had decoded.
-/
namespace Gorillats

open BitString BitParser

variable (ub : U64 → Int → U64) {T : ValueType}

/-- One point on a bit string: its timestamp, then its value. -/
def pointParser (T : ValueType) (st : CoderState) : BitParser (Point T × CoderState) := do
  let t ← tsParser st.ts
  let v ← valParser ub st.vs T.width
  return ((t.1, T.ofBits v.1), { ts := t.2, vs := v.2 })

theorem local_pointParser (st : CoderState) : Local (pointParser ub T st) :=
  (local_tsParser st.ts).bind fun _ => (local_valParser ub st.vs T.width).bind fun _ => local_pure _

structure Live (T : ValueType) (d : GorillatsDecompressor) (st : CoderState) (bits : List Bool) : Prop where
  reads : Reads d.r bits
  state : { ts := d.ts, vs := d.vs } = st
  width : d.width = T.width

theorem Live.start {d : GorillatsDecompressor} {t0 : I64} {bits : List Bool} (h : Live T d (startState t0) bits) :
    d.ts = { prevTs := t0, prevDelta := 0 } ∧ d.vs = {} :=
  ⟨congrArg CoderState.ts h.state, congrArg CoderState.vs h.state⟩

structure Ended (T : ValueType) (d : GorillatsDecompressor) : Prop where
  eof   : d.r.eof = true
  width : d.width = T.width

theorem ValueType.open_eq (T : ValueType) (buf : Option (List U8)) :
    T.openStream buf = gtDecompressorCreate buf T.width := by cases T <;> rfl

theorem ValueType.next_eq (T : ValueType) (d : Option GorillatsDecompressor) :
    T.next ub d = ((decompressNextWidth ub T.width d true).1.map fun p => (p.1, T.ofBits p.2),
      (decompressNextWidth ub T.width d true).2) := by cases T <;> rfl

theorem ValueType.decodeBatch_eq (T : ValueType) (d : Option GorillatsDecompressor) (n : Nat) :
    T.decodeBatch ub d n = ((decompressBatchWidth ub T.width d n true).1,
      (decompressBatchWidth ub T.width d n true).2.1.map fun p => (p.1, T.ofBits p.2),
      (decompressBatchWidth ub T.width d n true).2.2) := by cases T <;> rfl

theorem ValueType.decodeBatch_some {d : GorillatsDecompressor} (h : d.width = T.width) (n : Nat) :
    T.decodeBatch ub (some d) n =
      (if (decompressLoop ub T.width n d).1.length = n then .ok else (decompressLoop ub T.width n d).2.1,
        (decompressLoop ub T.width n d).1.map fun p => (p.1, T.ofBits p.2),
        some (decompressLoop ub T.width n d).2.2) := by
  rw [T.decodeBatch_eq, decompressBatchWidth]
  simp only
  rw [if_neg (by simp [h])]

/-! ## One point -/

section Step

variable {d : GorillatsDecompressor} {st st' : CoderState} {bits rest : List Bool}

section Outcomes

variable {width : Nat} {ts : I64} {v : U64} {rc : Status} {tss : GtTsState} {vss : GtValState} {r r' : GtReader}

theorem decodePoint_of_ts_ok (ht : gtTsDecode d.ts d.r = ((.ok ts, tss), r)) : decodePoint ub width d =
    ((gtValDecode ub d.vs width r).1.1.map fun v => (ts, v),
      { d with r := (gtValDecode ub d.vs width r).2, ts := tss, vs := (gtValDecode ub d.vs width r).1.2 }) := by
  simp only [decodePoint, ht]
  obtain ⟨⟨rc | v, vss⟩, r'⟩ := gtValDecode ub d.vs width r
  · rfl
  · rfl

theorem decodePoint_of_ok (ht : gtTsDecode d.ts d.r = ((.ok ts, tss), r))
    (hv : gtValDecode ub d.vs width r = ((.ok v, vss), r')) :
    decodePoint ub width d = (.ok (ts, v), { d with r := r', ts := tss, vs := vss }) := by
  rw [decodePoint_of_ts_ok ub ht, hv]
  rfl

theorem decodePoint_of_val_error (ht : gtTsDecode d.ts d.r = ((.ok ts, tss), r))
    (hv : gtValDecode ub d.vs width r = ((.error rc, vss), r')) :
    decodePoint ub width d = (.error rc, { d with r := r', ts := tss, vs := vss }) := by
  rw [decodePoint_of_ts_ok ub ht, hv]
  rfl

theorem decodePoint_of_ts_error (ht : gtTsDecode d.ts d.r = ((.error rc, tss), r)) :
    decodePoint ub width d = (.error rc, { d with r := r, ts := tss }) := by
  simp only [decodePoint, ht]

end Outcomes

theorem Live.decodePoint_some (h : Live T d st bits) {p : Point T}
    (hp : (pointParser ub T st).run bits = some ((p, st'), rest)) :
    ∃ b d', decodePoint ub T.width d = (.ok (p.1, b), d') ∧ T.ofBits b = p.2 ∧ Live T d' st' rest := by
  obtain ⟨hr, rfl, hw⟩ := h
  obtain ⟨⟨ts, tss⟩, mid, ht, hv⟩ := run_bind_eq_some hp
  obtain ⟨⟨b, vss⟩, rest', hv, hpure⟩ := run_bind_eq_some hv
  cases hpure
  obtain ⟨r₁, hout₁, hr₁⟩ := (decodes_ts d.ts).of_some hr ht
  obtain ⟨r₂, hout₂, hr₂⟩ := (decodes_val ub d.vs T.width).of_some hr₁ hv
  exact ⟨b, _, decodePoint_of_ok ub hout₁ hout₂, rfl, hr₂, rfl, hw⟩

/-- The handle answers `GORILLATS_ERR_EOF` where its parser fails, in the timestamp or in the value. -/
theorem Live.decodePoint_none (h : Live T d st bits) (hp : (pointParser ub T st).run bits = none) :
    ∃ d', decodePoint ub T.width d = (.error .errEof, d') ∧ Ended T d' := by
  obtain ⟨hr, rfl, hw⟩ := h
  cases ht : (tsParser d.ts).run bits with
  | none =>
    obtain ⟨tss, r₁, hout₁, heof⟩ := (decodes_ts d.ts).of_none hr ht
    exact ⟨_, decodePoint_of_ts_error ub hout₁, heof, hw⟩
  | some t =>
    obtain ⟨⟨ts, tss⟩, mid⟩ := t
    obtain ⟨r₁, hout₁, hr₁⟩ := (decodes_ts d.ts).of_some hr ht
    cases hv : (valParser ub d.vs T.width).run mid with
    | none =>
      obtain ⟨vss, r₂, hout₂, heof⟩ := (decodes_val ub d.vs T.width).of_none hr₁ hv
      exact ⟨_, decodePoint_of_val_error ub hout₁ hout₂, heof, hw⟩
    | some v =>
      -- both halves parse, so the point does
      rw [pointParser, run_bind_of_eq_some ht, run_bind_of_eq_some hv] at hp
      cases hp

/-- **The end is sticky**: a handle that has met the end of its stream answers `GORILLATS_ERR_EOF`. -/
theorem Ended.decodePoint (h : Ended T d) :
    ∃ d', Gorillats.decodePoint ub T.width d = (.error .errEof, d') ∧ Ended T d' := by
  obtain ⟨tss, r₁, hout₁, heof⟩ := (decodes_ts d.ts).of_eof h.eof
  exact ⟨_, decodePoint_of_ts_error ub hout₁, heof, h.width⟩

/-! ## One call -/

theorem next_of_decodePoint (hw : d.width = T.width) {rc : Except Status (I64 × U64)} {d' : GorillatsDecompressor}
    (h : decodePoint ub T.width d = (rc, d')) :
    T.next ub (some d) = (rc.map fun p => (p.1, T.ofBits p.2), some d') := by
  rw [T.next_eq, decompressNextWidth]
  simp only
  rw [if_neg (by simp [hw]), h]

theorem Live.next_some (h : Live T d st bits) {p : Point T}
    (hp : (pointParser ub T st).run bits = some ((p, st'), rest)) :
    ∃ d', T.next ub (some d) = (.ok p, some d') ∧ Live T d' st' rest := by
  obtain ⟨b, d', hd, hb, hlive⟩ := h.decodePoint_some ub hp
  refine ⟨d', ?_, hlive⟩
  rw [next_of_decodePoint ub h.width hd, Except.map, hb]

theorem Live.next_none (h : Live T d st bits) (hp : (pointParser ub T st).run bits = none) :
    ∃ d', T.next ub (some d) = (.error .errEof, some d') ∧ Ended T d' := by
  obtain ⟨d', hd, hend⟩ := h.decodePoint_none ub hp
  exact ⟨d', next_of_decodePoint ub h.width hd, hend⟩

theorem Ended.next (h : Ended T d) : ∃ d', T.next ub (some d) = (.error .errEof, some d') ∧ Ended T d' := by
  obtain ⟨d', hd, hend⟩ := h.decodePoint ub
  exact ⟨d', next_of_decodePoint ub h.width hd, hend⟩

end Step

/-! ## Many calls -/

theorem decompressEach_succ (n : Nat) (d : Option GorillatsDecompressor) : decompressEach ub T (n + 1) d =
    ((T.next ub d).1 :: (decompressEach ub T n (T.next ub d).2).1, (decompressEach ub T n (T.next ub d).2).2) := rfl

/-- An ended handle answers `GORILLATS_ERR_EOF` every time. -/
theorem Ended.decompressEach : ∀ (n : Nat) {d : GorillatsDecompressor}, Ended T d →
    ∃ d', Gorillats.decompressEach ub T n (some d) = (List.replicate n (Except.error Status.errEof), some d') ∧
      Ended T d'
  | 0, d, h => ⟨d, rfl, h⟩
  | n + 1, d, h => by
    obtain ⟨d₁, h₁, hend₁⟩ := h.next ub
    obtain ⟨d', h', hend⟩ := hend₁.decompressEach n
    refine ⟨d', ?_, hend⟩
    rw [decompressEach_succ, h₁, h']
    rfl

theorem decompressEach_add : ∀ (m n : Nat) (d : Option GorillatsDecompressor),
    decompressEach ub T (m + n) d =
      ((decompressEach ub T m d).1 ++ (decompressEach ub T n (decompressEach ub T m d).2).1,
        (decompressEach ub T n (decompressEach ub T m d).2).2)
  | 0, n, d => by rw [Nat.zero_add]; rfl
  | m + 1, n, d => by
    rw [Nat.succ_add, decompressEach_succ, decompressEach_add m n, decompressEach_succ]
    rfl

theorem length_decompressEach : ∀ (n : Nat) (d : Option GorillatsDecompressor),
    (decompressEach ub T n d).1.length = n
  | 0, _ => rfl
  | n + 1, d => by rw [decompressEach_succ, List.length_cons, length_decompressEach n]

theorem decompressEach_take (n m : Nat) (d : Option GorillatsDecompressor) (h : n ≤ m) :
    (decompressEach ub T n d).1 = (decompressEach ub T m d).1.take n := by
  obtain ⟨k, rfl⟩ := Nat.exists_eq_add_of_le h
  rw [decompressEach_add, List.take_append_of_le_length (by rw [length_decompressEach]),
    List.take_of_length_le (by rw [length_decompressEach])]

/-- **A run of the parser is a run of next calls.** -/
theorem Live.decompressEach {st st' : CoderState} {bits rest : List Bool} {pts : List (Point T)}
    (hrun : Run (pointParser ub T) st bits pts st' rest) {d : GorillatsDecompressor} (h : Live T d st bits) :
    ∃ d', Gorillats.decompressEach ub T pts.length (some d) = (pts.map Except.ok, some d') ∧ Live T d' st' rest := by
  induction hrun generalizing d with
  | nil => exact ⟨d, rfl, h⟩
  | cons hp _ ih =>
    obtain ⟨d₁, h₁, hlive₁⟩ := h.next_some ub hp
    obtain ⟨d', h', hlive⟩ := ih hlive₁
    refine ⟨d', ?_, hlive⟩
    rw [List.length_cons, decompressEach_succ, h₁, h']
    rfl

/-- **A run that ends in a failure delivers exactly its points.** -/
theorem Live.delivers {st st' : CoderState} {bits rest : List Bool} {pts : List (Point T)}
    (hrun : Run (pointParser ub T) st bits pts st' rest) (hnone : (pointParser ub T st').run rest = none)
    {d : GorillatsDecompressor} (h : Live T d st bits) : Delivers ub (some d) pts := by
  intro n
  obtain ⟨d₁, h₁, hlive⟩ := h.decompressEach ub hrun
  obtain ⟨d₂, h₂, hend⟩ := hlive.next_none ub hnone
  obtain ⟨d₃, h₃, -⟩ := hend.decompressEach ub n
  -- one call meets the end, the later ones repeat its answer
  have hall : (Gorillats.decompressEach ub T (pts.length + (n + 1)) (some d)).1
      = pts.map Except.ok ++ List.replicate (n + 1) (Except.error Status.errEof) := by
    rw [decompressEach_add, h₁, decompressEach_succ, h₂, h₃]
    rfl
  rw [decompressEach_take ub n (pts.length + (n + 1)) _ (by omega), hall, List.replicate_succ', ← List.append_assoc,
    List.take_append_of_le_length (by simp)]

/-! ## Opening a stream -/

/-- **A buffer that starts with `t0` opens in the start state of `t0`**, with its other bits still to come. -/
theorem open_live {data : List U8} {t0 : I64} {rest : List Bool} (hdata : unpack data = toBits 64 t0.toNat ++ rest) :
    ∃ d, T.openStream (some data) = some d ∧ Live T d (startState t0) rest := by
  have h8 : 8 ≤ data.length := by
    have := congrArg List.length hdata
    rw [length_unpack, List.length_append, length_toBits] at this
    omega
  have hy : Yields (gtGetBits 64 (gtReaderInit data data.length)) ((field64 64).run (unpack data)) :=
    (refines_field 64).yields _ _ (reads_init data)
  have hrun := field64_run_toBits 64 t0.toNat rest
  rw [Nat.mod_eq_of_lt t0.isLt, BitVec.ofNat_toNat, BitVec.setWidth_eq] at hrun
  rw [hdata, hrun] at hy
  rw [T.open_eq, gtDecompressorCreate, if_neg (by omega)]
  -- what the header field yields is all that matters
  generalize gtGetBits 64 (gtReaderInit data data.length) = out at hy
  obtain ⟨rfl, hr⟩ := hy
  exact ⟨_, rfl, hr, rfl, rfl⟩

theorem headerTs_of_unpack {data : List U8} {t0 : I64} {rest : List Bool} (hdata : unpack data = toBits 64 t0.toNat ++ rest) :
    headerTs data = t0 := by
  have htake : unpack (data.take 8) = toBits 64 t0.toNat := by
    rw [unpack_take, hdata, List.take_append_of_le_length (by rw [length_toBits]),
      List.take_of_length_le (by rw [length_toBits])]
  rw [headerTs, ← ofBitsFrom_unpack, htake]
  change BitVec.ofNat 64 (ofBits (toBits 64 t0.toNat)) = t0
  rw [ofBits_toBits, Nat.mod_eq_of_lt t0.isLt, BitVec.ofNat_toNat, BitVec.setWidth_eq]

/-- **Any buffer of eight bytes or more opens**, in the start state of its header. -/
theorem open_header {data : List U8} (h8 : 8 ≤ data.length) :
    ∃ d, T.openStream (some data) = some d ∧ Live T d (startState (headerTs data)) ((unpack data).drop 64) := by
  have hlen : ((unpack data).take 64).length = 64 := by
    rw [List.length_take, length_unpack]
    omega
  have hlt := ofBits_lt ((unpack data).take 64)
  have hbits : unpack data =
      toBits 64 (BitVec.ofNat 64 (ofBits ((unpack data).take 64))).toNat ++ (unpack data).drop 64 := by
    have htake := toBits_ofBits ((unpack data).take 64)
    rw [hlen] at hlt htake
    rw [toNat_ofNat_of_lt (Nat.le_refl 64) hlt, htake, List.take_append_drop]
  rw [headerTs_of_unpack hbits]
  exact open_live hbits

end Gorillats
