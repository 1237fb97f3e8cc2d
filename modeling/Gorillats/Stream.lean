import Gorillats.Runs
import Gorillats.Values
/-!
# Stream — the bit string a compressor writes

`stream T t0 pts` is the stream without a capacity: `t0` in 64 bits and one codeword a point.  Whatever calls fed a
compressor its points, and wherever it overflowed, its buffer holds the first `8 * cap` bits of their stream
(`Encodes`): an overflow stops the writer for good, so what the coding state becomes after it is never seen.
-/
namespace Gorillats

open BitString BitParser

structure CoderState where
  ts : GtTsState
  vs : GtValState

variable {T : ValueType}

/-- The code of a point: its timestamp's codeword, then its value's. -/
def pointCoder (T : ValueType) : BitCoder CoderState (Point T) where
  code st p := dodCode (st.ts.dod p.1) ++ valCode T.width st.vs (T.toBits p.2)
  next st p := { ts := st.ts.next p.1, vs := st.vs.next T.width (T.toBits p.2) }

def startState (t0 : I64) : CoderState := { ts := { prevTs := t0, prevDelta := 0 }, vs := {} }

/-- **The stream of a point sequence**, whole. -/
def stream (T : ValueType) (t0 : I64) (pts : List (Point T)) : List Bool :=
  toBits 64 t0.toNat ++ (pointCoder T).codes (startState t0) pts

/-- The points whose stream fits in `cap` bytes: the longest such prefix. -/
def fitting (cap : Nat) (t0 : I64) (pts : List (Point T)) : List (Point T) :=
  (pointCoder T).fitting (8 * cap - 64) (startState t0) pts

/-! ## The API by width -/

theorem ValueType.create_eq (T : ValueType) (buf : Option (List U8)) (t0 : I64) :
    T.create buf t0 = gtCompressorCreate buf t0 T.width := by cases T <;> rfl

theorem ValueType.compress_eq (T : ValueType) (c : Option GorillatsCompressor) (ts : I64) (v : Value T) :
    T.compress c ts v = compressWidth T.width c ts (T.toBits v) := by cases T <;> rfl

theorem ValueType.compress_some (T : ValueType) {c : GorillatsCompressor} (h : c.width = T.width) (ts : I64)
    (v : Value T) :
    T.compress (some c) ts v =
      ((encodePoint T.width c ts (T.toBits v)).status, some (encodePoint T.width c ts (T.toBits v))) := by
  rw [T.compress_eq, compressWidth]
  simp only
  rw [if_neg (by simp [h])]

theorem ValueType.compressBatch_eq (T : ValueType) (c : Option GorillatsCompressor) (ts : Option (List I64))
    (vals : Option (List (Value T))) (n : Nat) :
    T.compressBatch c ts vals n = compressBatchWidth T.width c ts (vals.map (·.map T.toBits)) n := by cases T <;> rfl

theorem ValueType.width_le (T : ValueType) : T.width ≤ 64 := by cases T <;> decide

theorem ValueType.one_le_width (T : ValueType) : 1 ≤ T.width := by cases T <;> decide

theorem gtFloatToBits_lt (f : BitVec 32) : (gtFloatToBits f).toNat < 2 ^ 32 := by
  have := f.isLt
  unfold gtFloatToBits
  rw [BitVec.toNat_setWidth]
  omega

theorem gtBitsToFloat_toBits (f : BitVec 32) : gtBitsToFloat (gtFloatToBits f) = f := by
  simp [gtBitsToFloat, gtFloatToBits]

theorem ValueType.toBits_lt (T : ValueType) (v : Value T) : (T.toBits v).toNat < 2 ^ T.width := by
  cases T with
  | double => exact BitVec.isLt (w := 64) v
  | float => exact gtFloatToBits_lt v

theorem ValueType.ofBits_toBits (T : ValueType) (v : Value T) : T.ofBits (T.toBits v) = v := by
  cases T with
  | double => rfl
  | float => exact gtBitsToFloat_toBits v

theorem ValueType.toBits_ofBits (T : ValueType) {bits : U64} (h : bits.toNat < 2 ^ T.width) :
    T.toBits (T.ofBits bits) = bits := by
  cases T with
  | double => rfl
  | float =>
    apply BitVec.eq_of_toNat_eq
    change (gtFloatToBits (gtBitsToFloat bits)).toNat = bits.toNat
    unfold gtFloatToBits gtBitsToFloat
    rw [BitVec.toNat_setWidth, BitVec.toNat_setWidth, Nat.mod_eq_of_lt (show bits.toNat < 2 ^ 32 from h),
      Nat.mod_eq_of_lt bits.isLt]

/-! ## Streams -/

theorem stream_append (t0 : I64) (as bs : List (Point T)) :
    stream T t0 (as ++ bs) = stream T t0 as ++ (pointCoder T).codes ((pointCoder T).after (startState t0) as) bs := by
  unfold stream
  rw [BitCoder.codes_append, List.append_assoc]

theorem length_stream (t0 : I64) (pts : List (Point T)) :
    (stream T t0 pts).length = 64 + ((pointCoder T).codes (startState t0) pts).length := by
  unfold stream
  rw [List.length_append, length_toBits]

theorem fitting_of_le {cap : Nat} {t0 : I64} {pts : List (Point T)} (h : (stream T t0 pts).length ≤ 8 * cap) :
    fitting cap t0 pts = pts := by
  rw [length_stream] at h
  exact BitCoder.fitting_of_le _ _ _ _ (by omega)

theorem fitting_append_of_lt {cap : Nat} {t0 : I64} {as : List (Point T)} (bs : List (Point T)) (h8 : 8 ≤ cap)
    (h : 8 * cap < (stream T t0 as).length) : fitting cap t0 (as ++ bs) = fitting cap t0 as := by
  rw [length_stream] at h
  exact BitCoder.fitting_append_of_lt _ _ _ _ _ (by omega)

theorem length_stream_mono (t0 : I64) {as bs : List (Point T)} (h : as <+: bs) :
    (stream T t0 as).length ≤ (stream T t0 bs).length := by
  have := (pointCoder T).length_codes_mono (startState t0) h
  rw [length_stream, length_stream]
  omega

theorem fitting_concat_of_lt {cap : Nat} {t0 : I64} {pts : List (Point T)} {p : Point T} (h8 : 8 ≤ cap)
    (h : 8 * cap < (stream T t0 (pts ++ [p])).length) : fitting cap t0 (pts ++ [p]) = fitting cap t0 pts := by
  rw [length_stream] at h
  exact BitCoder.fitting_concat_of_lt _ _ _ _ _ (by omega)

theorem fitting_concat_of_le {cap : Nat} {t0 : I64} {pts : List (Point T)} {p : Point T}
    (h : (stream T t0 (pts ++ [p])).length ≤ 8 * cap) : fitting cap t0 (pts ++ [p]) = fitting cap t0 pts ++ [p] := by
  have hle := length_stream_mono t0 (List.prefix_append pts [p])
  rw [fitting_of_le h, fitting_of_le (by omega)]

/-- **`fitting` is the longest prefix of the points whose stream fits.** -/
theorem isGreatest_fitting {cap : Nat} (t0 : I64) (pts : List (Point T)) (h8 : 8 ≤ cap) :
    IsGreatest {k | k ≤ pts.length ∧ (stream T t0 (pts.take k)).length ≤ 8 * cap} (fitting cap t0 pts).length := by
  have h := (pointCoder T).isGreatest_fitting (8 * cap - 64) (startState t0) pts
  have e : {k | k ≤ pts.length ∧ (stream T t0 (pts.take k)).length ≤ 8 * cap}
      = {k | k ≤ pts.length ∧ ((pointCoder T).codes (startState t0) (pts.take k)).length ≤ 8 * cap - 64} := by
    ext k
    simp only [Set.mem_ofPred_eq, length_stream]
    omega
  rw [e]
  exact h

theorem stream_fitting_le {cap : Nat} (t0 : I64) (h8 : 8 ≤ cap) (pts : List (Point T)) :
    (stream T t0 (fitting cap t0 pts)).length ≤ 8 * cap := by
  have h := (isGreatest_fitting t0 pts h8).1.2
  have hpre : fitting cap t0 pts <+: pts := (pointCoder T).fitting_isPrefix _ _ _
  rwa [← List.prefix_iff_eq_take.1 hpre] at h

/-! ## The compressor's invariant -/

/-- **What a compressor holds once it was fed `pts`**, over a buffer that held `init`. -/
structure Encodes (T : ValueType) (init : List U8) (t0 : I64) (pts : List (Point T)) (c : GorillatsCompressor) :
    Prop where
  writes : Writes init c.w (stream T t0 pts)
  width  : c.width = T.width
  state  : c.w.overflow = false →
    ({ ts := c.ts, vs := c.vs } : CoderState) = (pointCoder T).after (startState t0) pts

/-- Two bit strings the buffer cannot tell apart. -/
theorem Writes.congr {init : List U8} {w : GtWriter} {E E' : List Bool} (h : Writes init w E)
    (htake : E'.take (8 * init.length) = E.take (8 * init.length))
    (hlt : 8 * init.length < E'.length ↔ 8 * init.length < E.length) : Writes init w E' := by
  have hmin := congrArg List.length htake
  rw [List.length_take, List.length_take] at hmin
  refine ⟨h.cap, h.length, h.bitPos, by rw [hmin]; exact h.pos, ?_, by rw [htake]; exact h.written, h.fresh⟩
  rw [h.overflow]
  exact decide_eq_decide.2 hlt.symm

section Encode

variable {init : List U8} {t0 : I64} {pts : List (Point T)} {c : GorillatsCompressor}

theorem Encodes.overflow (h : Encodes T init t0 pts c) :
    c.w.overflow = decide (8 * init.length < (stream T t0 pts).length) := h.writes.overflow

theorem Encodes.status (h : Encodes T init t0 pts c) :
    c.status = if 8 * init.length < (stream T t0 pts).length then .errOverflow else .ok := by
  unfold GorillatsCompressor.status
  rw [h.overflow]
  simp

theorem Encodes.streamBytes_of_fits (h : Encodes T init t0 pts c)
    (hfit : (stream T t0 pts).length ≤ 8 * init.length) : streamBytes (some c) = pack (stream T t0 pts) := by
  have e : streamBytes (some c) = pack ((stream T t0 pts).take (8 * init.length)) := h.writes.take_len
  rw [e, List.take_of_length_le hfit]

theorem encodes_create (buf : List U8) (t0 : I64) (h8 : 8 ≤ buf.length) :
    ∃ c, T.create (some buf) t0 = some c ∧ Encodes T buf t0 [] c := by
  rw [T.create_eq, gtCompressorCreate, if_neg (by omega)]
  refine ⟨_, rfl, ?_, rfl, fun _ => rfl⟩
  have h := (writes_init buf).putList (toBits 64 t0.toNat)
  rw [gtPutBits_eq]
  simpa [stream] using h

/-- **One point fed**, whether or not it fits. -/
theorem Encodes.encodePoint (h : Encodes T init t0 pts c) (p : Point T) :
    Encodes T init t0 (pts ++ [p]) (encodePoint T.width c p.1 (T.toBits p.2)) := by
  have hc : Gorillats.encodePoint T.width c p.1 (T.toBits p.2) =
      { w := putList c.w (dodCode (c.ts.dod p.1) ++ valCode T.width c.vs (T.toBits p.2))
        ts := c.ts.next p.1
        vs := c.vs.next T.width (T.toBits p.2)
        width := c.width } := by
    simp only [Gorillats.encodePoint, gtTsEncode_eq, gtValEncode_eq, putList_append]
  rw [hc]
  have hw := h.writes.putList (dodCode (c.ts.dod p.1) ++ valCode T.width c.vs (T.toBits p.2))
  cases hov : c.w.overflow with
  | false =>
    have hst := h.state hov
    refine ⟨?_, h.width, fun _ => ?_⟩
    · rw [stream_append, ← hst, BitCoder.codes_cons, BitCoder.codes_nil, List.append_nil]
      exact hw
    · rw [BitCoder.after_append, ← hst]
      rfl
  | true =>
    -- the buffer is full: the codewords after it are written nowhere
    have hlt : 8 * init.length < (stream T t0 pts).length := by simpa [h.overflow] using hov
    have hcong : ∀ bits : List Bool, Writes init (putList c.w (dodCode (c.ts.dod p.1) ++
        valCode T.width c.vs (T.toBits p.2))) (stream T t0 pts ++ bits) := by
      intro bits
      refine hw.congr ?_ ?_
      · rw [List.take_append_of_le_length (by omega), List.take_append_of_le_length (by omega)]
      · simp only [List.length_append]
        omega
    refine ⟨?_, h.width, fun hno => ?_⟩
    · rw [stream_append]
      exact hcong _
    · have := (hcong []).overflow
      rw [List.append_nil, hno] at this
      simp [hlt] at this

theorem Encodes.compress (h : Encodes T init t0 pts c) (p : Point T) :
    ∃ c', T.compress (some c) p.1 p.2 =
        (if 8 * init.length < (stream T t0 (pts ++ [p])).length then .errOverflow else .ok, some c') ∧
      Encodes T init t0 (pts ++ [p]) c' := by
  have h' := h.encodePoint p
  exact ⟨_, by rw [T.compress_some h.width, h'.status], h'⟩

/-- **Point after point**: the answers and the buffer are those of the whole sequence. -/
theorem Encodes.compressEach : ∀ (qs : List (Point T)) {pts : List (Point T)} {c : GorillatsCompressor},
    Encodes T init t0 pts c → ∃ c', Encodes T init t0 (pts ++ qs) c' ∧
      Gorillats.compressEach (some c) qs = ((List.range qs.length).map fun i =>
        if 8 * init.length < (stream T t0 (pts ++ qs.take (i + 1))).length then .errOverflow else .ok, some c')
  | [], pts, c, h => ⟨c, by simpa using h, rfl⟩
  | q :: qs, pts, c, h => by
    obtain ⟨c₁, hrun, h₁⟩ := h.compress q
    obtain ⟨c', h', hruns⟩ := h₁.compressEach qs
    refine ⟨c', by simpa using h', ?_⟩
    rw [Gorillats.compressEach, hrun]
    simp only
    rw [hruns, List.length_cons, List.range_succ_eq_map, List.map_cons, List.map_map]
    simp only [Nat.zero_add, List.take_succ_cons, List.take_zero, Function.comp_def, List.append_assoc,
      List.singleton_append]
    rfl

end Encode

/-- **The bounded writer refines the stream.**  Every answer is decided by the length of the stream so far; the bytes
below `finish()` are the packing of its first `8 * cap` bits, whatever the buffer held; the bytes after `finish()` still
hold it. -/
theorem compressEach_refines_stream (buf : List U8) (t0 : I64) (pts : List (Point T)) (h8 : 8 ≤ buf.length) :
    ∃ rcs c, compressEach (T.create (some buf) t0) pts = (rcs, c) ∧
      rcs = ((List.range pts.length).map fun i =>
        if 8 * buf.length < (stream T t0 (pts.take (i + 1))).length then .errOverflow else .ok) ∧
      gorillatsCompressorFinish c = (min (8 * buf.length) (stream T t0 pts).length + 7) / 8 ∧
      (bufferOf c).take (gorillatsCompressorFinish c) = pack ((stream T t0 pts).take (8 * buf.length)) ∧
      ∀ i, gorillatsCompressorFinish c < i → (bufferOf c)[i]? = buf[i]? := by
  obtain ⟨c₀, hc₀, h₀⟩ := encodes_create (T := T) buf t0 h8
  obtain ⟨c, h, hrun⟩ := h₀.compressEach pts
  rw [hc₀]
  exact ⟨_, some c, hrun, rfl, h.writes.len, h.writes.take_len, fun i => h.writes.getElem?_of_len_lt⟩

/-- Three readings of a sensor: the second repeats the first's value, the third's value reuses no window. -/
def readings : List (Point .double) :=
  [(1010, 0x4045000000000000), (1020, 0x4045000000000000), (1031, 0x4045800000000000)]

theorem compressEach_refines_stream_readings :
    ∃ rcs c, compressEach (ValueType.double.create (some (List.replicate 17 0xFF)) 1000) readings = (rcs, c) ∧
      rcs = ((List.range readings.length).map fun i =>
        if 8 * (List.replicate 17 (0xFF : U8)).length < (stream .double 1000 (readings.take (i + 1))).length then
          .errOverflow
        else .ok) ∧
      gorillatsCompressorFinish c =
        (min (8 * (List.replicate 17 (0xFF : U8)).length) (stream .double 1000 readings).length + 7) / 8 ∧
      (bufferOf c).take (gorillatsCompressorFinish c) =
        pack ((stream .double 1000 readings).take (8 * (List.replicate 17 (0xFF : U8)).length)) ∧
      ∀ i, gorillatsCompressorFinish c < i → (bufferOf c)[i]? = (List.replicate 17 (0xFF : U8))[i]? :=
  compressEach_refines_stream (List.replicate 17 0xFF) 1000 readings (by decide)

end Gorillats
