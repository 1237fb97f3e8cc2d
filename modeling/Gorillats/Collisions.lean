import Gorillats.Capacity
import Gorillats.Writers
/-!
# Collisions — which series share their bytes

A codeword is read back whatever follows it, so a stream determines its codewords one by one (`codes_cancel`): the values,
and each delta-of-delta up to `SameDod`.  The last bucket writes 32 bits of a 64-bit delta-of-delta, so two of them with
the same low 32 bits share their codeword; there is no other collision.  The count in the envelope says where the stream
ends, so an envelope determines its series as far as the stream does, in either language.
-/
namespace Gorillats

open BitString BitParser

/-! ## Delta-of-deltas -/

/-- **What the format cannot tell apart**: delta-of-deltas of more than 12 bits with the same low 32. -/
def SameDod (d d' : I64) : Prop :=
  d = d' ∨ gtFitsSigned d 12 = false ∧ gtFitsSigned d' 12 = false ∧ d.setWidth 32 = d'.setWidth 32

instance (d d' : I64) : Decidable (SameDod d d') := by unfold SameDod; infer_instance

theorem dodCode_of_far {d : I64} (h : gtFitsSigned d 12 = false) : dodCode d = toBits 4 0xF ++ toBits 32 d.toNat := by
  have hno : ∀ n, 0 < n → n ≤ 12 → ¬ gtFitsSigned d n = true := by
    intro n h0 hn hfit
    rw [gtFitsSigned_iff d (by omega)] at hfit
    have hle : (2 : Int) ^ (n - 1) ≤ 2 ^ 11 := by
      exact_mod_cast Nat.pow_le_pow_right (by decide) (show n - 1 ≤ 11 by omega)
    have h12 : gtFitsSigned d 12 = true := (gtFitsSigned_iff d (by decide)).2 (by omega)
    rw [h] at h12
    cases h12
  have h0 : d ≠ 0 := by
    rintro rfl
    exact absurd h (by decide)
  unfold dodCode
  rw [if_neg h0, if_neg (hno 7 (by decide) (by decide)), if_neg (hno 9 (by decide) (by decide)),
    if_neg (hno 12 (by decide) (by decide))]

theorem length_dodCode_lt {d : I64} (h : gtFitsSigned d 12 = true) : (dodCode d).length < 36 := by
  unfold dodCode
  split_ifs <;> simp

theorem dodCode_cancel {d d' : I64} {r r' : List Bool} (h : dodCode d ++ r = dodCode d' ++ r') :
    dodCode d = dodCode d' ∧ signedLow d 32 = signedLow d' 32 ∧ r = r' := by
  have hread := dodParser_dodCode d r
  rw [h, dodParser_dodCode] at hread
  simp only [Option.some.injEq, Prod.mk.injEq] at hread
  obtain ⟨hlow, rfl⟩ := hread
  exact ⟨(List.append_left_inj _).1 h, hlow.symm, rfl⟩

/-- **The codewords of two delta-of-deltas** are the same exactly when the format cannot tell these apart. -/
theorem dodCode_eq_iff (d d' : I64) : dodCode d = dodCode d' ↔ SameDod d d' := by
  constructor
  · intro h
    obtain ⟨-, hlow, -⟩ := dodCode_cancel (congrArg (· ++ ([] : List Bool)) h)
    cases hd : gtFitsSigned d 12 with
    | true =>
      have hlt := length_dodCode_lt hd
      cases hd' : gtFitsSigned d' 12 with
      | true =>
        have hin : ∀ {e : I64}, gtFitsSigned e 12 = true → signedLow e 32 = e := by
          intro e he
          rw [gtFitsSigned_iff e (by decide)] at he
          rw [signedLow_32_eq_iff, InRange]
          omega
        rw [hin hd, hin hd'] at hlow
        exact .inl hlow
      | false =>
        rw [h, dodCode_of_far hd'] at hlt
        simp at hlt
    | false =>
      cases hd' : gtFitsSigned d' 12 with
      | true =>
        have hlt := length_dodCode_lt hd'
        rw [← h, dodCode_of_far hd] at hlt
        simp at hlt
      | false =>
        have hset := congrArg (BitVec.setWidth 32) hlow
        rw [signedLow_setWidth _ (by decide), signedLow_setWidth _ (by decide)] at hset
        exact .inr ⟨hd, hd', hset⟩
  · rintro (rfl | ⟨hd, hd', hset⟩)
    · rfl
    · have hmod := congrArg BitVec.toNat hset
      rw [BitVec.toNat_setWidth, BitVec.toNat_setWidth] at hmod
      rw [dodCode_of_far hd, dodCode_of_far hd', ← toBits_mod 32 32 d.toNat (Nat.le_refl _), hmod,
        toBits_mod 32 32 _ (Nat.le_refl _)]

theorem sameDod_iff_of_inRange {d d' : I64} (h : InRange d) (h' : InRange d') : SameDod d d' ↔ d = d' := by
  constructor
  · rintro (rfl | ⟨-, -, hset⟩)
    · rfl
    · rw [← (signedLow_32_eq_iff d).2 h, ← (signedLow_32_eq_iff d').2 h', signedLow, signedLow, hset]
  · exact .inl

/-! ## Streams -/

variable {T : ValueType}

/-- **Two series with the same codewords**: the same values, and delta-of-deltas the format cannot tell apart. -/
structure Alike (t0 : I64) (pts pts' : List (Point T)) : Prop where
  values : pts.map (·.2) = pts'.map (·.2)
  dods   : List.Forall₂ SameDod (deltaOfDeltas t0 (pts.map (·.1))) (deltaOfDeltas t0 (pts'.map (·.1)))

theorem valCode_cancel {s : GtValState} (hs : WinOk T.width s) {v v' : Value T} {r r' : List Bool}
    (h : valCode T.width s (T.toBits v) ++ r = valCode T.width s (T.toBits v') ++ r') : v = v' ∧ r = r' := by
  have hread := valParser_valCode maskedShl hs T.width_le (T.toBits_lt v) r
  rw [h, valParser_valCode maskedShl hs T.width_le (T.toBits_lt v')] at hread
  simp only [Option.some.injEq, Prod.mk.injEq] at hread
  obtain ⟨⟨hbits, -⟩, hr⟩ := hread
  refine ⟨?_, hr.symm⟩
  rw [← T.ofBits_toBits v, ← hbits, T.ofBits_toBits]

theorem next_vs_congr {e e' : CoderState} {p p' : Point T} (hvs : e.vs = e'.vs) (hv : p.2 = p'.2) :
    ((pointCoder T).next e p).vs = ((pointCoder T).next e' p').vs := by
  rw [pointCoder]
  simp only
  rw [hvs, hv]

/-- **Codewords cancel one by one**, from timestamp states that need not be the same. -/
theorem codes_cancel {pts pts' : List (Point T)} {e e' : CoderState} {r r' : List Bool} (hvs : e.vs = e'.vs)
    (hwin : WinOk T.width e.vs) (hlen : pts.length = pts'.length)
    (h : (pointCoder T).codes e pts ++ r = (pointCoder T).codes e' pts' ++ r') :
    pts.map (·.2) = pts'.map (·.2) ∧
      List.Forall₂ SameDod (deltaOfDeltasFrom e.ts.prevTs e.ts.prevDelta (pts.map (·.1)))
        (deltaOfDeltasFrom e'.ts.prevTs e'.ts.prevDelta (pts'.map (·.1))) ∧ r = r' := by
  induction pts generalizing pts' e e' with
  | nil =>
    obtain rfl := List.eq_nil_of_length_eq_zero hlen.symm
    exact ⟨rfl, .nil, h⟩
  | cons p pts ih =>
    obtain ⟨p', pts', rfl⟩ := List.exists_cons_of_length_eq_add_one hlen.symm
    have hcode : ∀ (e : CoderState) (p : Point T) (pts : List (Point T)) (r : List Bool),
        (pointCoder T).codes e (p :: pts) ++ r = dodCode (e.ts.dod p.1) ++
          (valCode T.width e.vs (T.toBits p.2) ++ ((pointCoder T).codes ((pointCoder T).next e p) pts ++ r)) := by
      intro e p pts r
      rw [BitCoder.codes_cons, pointCoder]
      simp only [List.append_assoc]
    rw [hcode, hcode, ← hvs] at h
    obtain ⟨hdod, -, h⟩ := dodCode_cancel h
    obtain ⟨hv, h⟩ := valCode_cancel hwin h
    have hsame : SameDod (e.ts.dod p.1) (e'.ts.dod p'.1) := (dodCode_eq_iff _ _).1 hdod
    obtain ⟨hvals, hdods, hr⟩ := ih (next_vs_congr hvs hv) (hwin.nextPoint p) (Nat.succ.inj hlen) h
    rw [List.map_cons, List.map_cons, List.map_cons, List.map_cons, hv, hvals]
    exact ⟨rfl, .cons hsame hdods, hr⟩

theorem codes_congr : ∀ {pts pts' : List (Point T)} {e e' : CoderState}, e.vs = e'.vs →
    pts.map (·.2) = pts'.map (·.2) →
    List.Forall₂ SameDod (deltaOfDeltasFrom e.ts.prevTs e.ts.prevDelta (pts.map (·.1)))
      (deltaOfDeltasFrom e'.ts.prevTs e'.ts.prevDelta (pts'.map (·.1))) →
    (pointCoder T).codes e pts = (pointCoder T).codes e' pts'
  | [], [], _, _, _, _, _ => rfl
  | [], _ :: _, _, _, _, hvals, _ => by cases hvals
  | _ :: _, [], _, _, _, hvals, _ => by cases hvals
  | p :: pts, p' :: pts', e, e', hvs, hvals, hdods => by
    rw [List.map_cons, List.map_cons, List.cons.injEq] at hvals
    obtain ⟨hv, hvals⟩ := hvals
    cases hdods with
    | cons hdod hdods =>
      have hsame : dodCode (e.ts.dod p.1) = dodCode (e'.ts.dod p'.1) := (dodCode_eq_iff _ _).2 hdod
      have hcode : (pointCoder T).code e p = (pointCoder T).code e' p' := by
        rw [pointCoder]
        simp only
        rw [hvs, hv, hsame]
      rw [BitCoder.codes_cons, BitCoder.codes_cons, hcode, codes_congr (next_vs_congr hvs hv) hvals hdods]

/-- **Packed streams of as many points** are the same exactly when the series start together and are alike. -/
theorem pack_stream_eq_iff {t0 t0' : I64} {pts pts' : List (Point T)} (hlen : pts.length = pts'.length) :
    pack (stream T t0 pts) = pack (stream T t0' pts') ↔ t0 = t0' ∧ Alike t0 pts pts' := by
  constructor
  · intro h
    have hbits := congrArg unpack h
    rw [unpack_pack, unpack_pack, stream, stream, List.append_assoc, List.append_assoc] at hbits
    obtain ⟨hheader, hcodes⟩ := List.append_inj hbits (by rw [length_toBits, length_toBits])
    have ht0 : t0 = t0' := by
      have hval := congrArg ofBits hheader
      rw [ofBits_toBits, ofBits_toBits, Nat.mod_eq_of_lt t0.isLt, Nat.mod_eq_of_lt t0'.isLt] at hval
      exact BitVec.eq_of_toNat_eq hval
    subst ht0
    obtain ⟨hvals, hdods, -⟩ := codes_cancel rfl (winOk_init _) hlen hcodes
    exact ⟨rfl, hvals, hdods⟩
  · rintro ⟨rfl, hvals, hdods⟩
    have hcodes : (pointCoder T).codes (startState t0) pts = (pointCoder T).codes (startState t0) pts' :=
      codes_congr rfl hvals hdods
    rw [stream, stream, hcodes]

/-! ## Series whose delta-of-deltas fit -/

theorem deltaOfDeltasFrom_inj : ∀ {tss tss' : List I64} {prevTs prevDelta : I64},
    deltaOfDeltasFrom prevTs prevDelta tss = deltaOfDeltasFrom prevTs prevDelta tss' → tss = tss'
  | [], [], _, _, _ => rfl
  | [], _ :: _, _, _, h => by cases h
  | _ :: _, [], _, _, h => by cases h
  | ts :: tss, ts' :: tss', prevTs, prevDelta, h => by
    rw [deltaOfDeltasFrom, deltaOfDeltasFrom, List.cons.injEq] at h
    obtain ⟨hhead, htail⟩ := h
    obtain rfl : ts = ts' := (BitVec.sub_left_inj _).1 ((BitVec.sub_left_inj _).1 hhead)
    rw [deltaOfDeltasFrom_inj htail]

theorem eq_of_sameDods : ∀ {ds ds' : List I64}, List.Forall₂ SameDod ds ds' → (∀ d ∈ ds, InRange d) →
    (∀ d ∈ ds', InRange d) → ds = ds'
  | [], [], .nil, _, _ => rfl
  | d :: ds, d' :: ds', .cons h hs, hin, hin' => by
    rw [List.forall_mem_cons] at hin hin'
    rw [(sameDod_iff_of_inRange hin.1 hin'.1).1 h, eq_of_sameDods hs hin.2 hin'.2]

/-- **No two series collide** whose delta-of-deltas fit 32 bits. -/
theorem alike_iff_eq {t0 : I64} {pts pts' : List (Point T)} (h : ∀ d ∈ deltaOfDeltas t0 (pts.map (·.1)), InRange d)
    (h' : ∀ d ∈ deltaOfDeltas t0 (pts'.map (·.1)), InRange d) : Alike t0 pts pts' ↔ pts = pts' := by
  constructor
  · rintro ⟨hvals, hdods⟩
    have hts := deltaOfDeltasFrom_inj (eq_of_sameDods hdods h h')
    exact (List.zip_of_prod hts hvals).trans (List.zip_of_prod rfl rfl).symm
  · rintro rfl
    exact ⟨rfl, List.forall₂_same.2 fun _ _ => .inl rfl⟩

/-! ## Envelopes -/

theorem Cpp.bytes_of_ok {t0 : I64} {capacity : Nat} {c : Cpp.BasicCompressor T} {calls : List (Call T)}
    (hnew : Cpp.BasicCompressor.new T t0 capacity = .ok c) (hok : ∀ out ∈ (Cpp.appends c calls).1, out = .ok ()) :
    (Cpp.appends c calls).2.bytes =
      envelope T (BitVec.ofNat 64 (fed calls).length) (pack (stream T t0 (fed calls))) := by
  obtain ⟨h8, rfl⟩ := Cpp.capacity_of_new hnew
  obtain ⟨hbytes, hiff⟩ := Cpp.appends_fresh t0 h8 calls
  rw [hbytes, snapshot_of_fits (hiff.1 fun out hout => (Cpp.eq_ok_iff_isOk out).1 (hok out hout))]

theorem Rust.finish_of_ok {t0 : I64} {capacity : Nat} {c : Rust.Compressor T} {calls : List (Call T)}
    (hnew : Rust.Compressor.new T t0 capacity = .ok c) (hok : ∀ out ∈ (Rust.appends c calls).1, out.isOk = true) :
    (Rust.appends c calls).2.finish =
      envelope T (BitVec.ofNat 64 (fed calls).length) (pack (stream T t0 (fed calls))) := by
  rw [Rust.Compressor.new_eq] at hnew
  cases hnew
  obtain ⟨hfinish, hiff⟩ := Rust.appends_fresh t0 (Nat.le_max_right capacity 8) calls
  rw [hfinish, snapshot_of_fits (hiff.1 hok)]

/-- **Which series share their envelope.**  The C++ envelope of one series is the Rust envelope of another exactly when
they start at the same `t0` and have the same values and delta-of-deltas the format cannot tell apart; so only when they
are the same series, where all of these fit 32 bits. -/
theorem envelopes_eq_iff {t0 t0' : I64} {capacity capacity' : Nat} {cpp : Cpp.BasicCompressor T}
    {rust : Rust.Compressor T} {calls calls' : List (Call T)} (hcpp : Cpp.BasicCompressor.new T t0 capacity = .ok cpp)
    (hrust : Rust.Compressor.new T t0' capacity' = .ok rust)
    (hok : ∀ out ∈ (Cpp.appends cpp calls).1, out = .ok ())
    (hok' : ∀ out ∈ (Rust.appends rust calls').1, out.isOk = true)
    (hlt : (fed calls).length < 2 ^ 64) (hlt' : (fed calls').length < 2 ^ 64) :
    ((Cpp.appends cpp calls).2.bytes = (Rust.appends rust calls').2.finish ↔
        t0 = t0' ∧ Alike t0 (fed calls) (fed calls')) ∧
      ((∀ d ∈ deltaOfDeltas t0 ((fed calls).map (·.1)), InRange d) →
        (∀ d ∈ deltaOfDeltas t0' ((fed calls').map (·.1)), InRange d) →
        ((Cpp.appends cpp calls).2.bytes = (Rust.appends rust calls').2.finish ↔
          t0 = t0' ∧ fed calls = fed calls')) := by
  rw [Cpp.bytes_of_ok hcpp hok, Rust.finish_of_ok hrust hok']
  generalize fed calls = pts at hlt ⊢
  generalize fed calls' = pts' at hlt' ⊢
  have hiff : envelope T (BitVec.ofNat 64 pts.length) (pack (stream T t0 pts)) =
      envelope T (BitVec.ofNat 64 pts'.length) (pack (stream T t0' pts')) ↔ t0 = t0' ∧ Alike t0 pts pts' := by
    constructor
    · intro h
      have hcount := congrArg (fun data => (getU64Le (data.drop 8)).toNat) h
      have hpayload := congrArg (List.drop headerSize) h
      rw [drop_envelope, drop_envelope] at hpayload
      simp only [count_envelope, BitVec.toNat_ofNat, Nat.mod_eq_of_lt hlt, Nat.mod_eq_of_lt hlt'] at hcount
      exact (pack_stream_eq_iff hcount).1 hpayload
    · rintro ⟨rfl, halike⟩
      have hlen : pts.length = pts'.length := by
        have := congrArg List.length halike.values
        rwa [List.length_map, List.length_map] at this
      rw [hlen, (pack_stream_eq_iff hlen).2 ⟨rfl, halike⟩]
  refine ⟨hiff, fun hin hin' => hiff.trans ?_⟩
  constructor
  · rintro ⟨rfl, halike⟩
    exact ⟨rfl, (alike_iff_eq hin hin').1 halike⟩
  · rintro ⟨rfl, rfl⟩
    exact ⟨rfl, (alike_iff_eq hin hin').2 rfl⟩

/-- One point 5000 after `t0` and one `2 ^ 32 + 5000` after it. -/
theorem envelopes_eq_iff_jump :
    ∃ cpp rust, Cpp.BasicCompressor.new .double 0 64 = .ok cpp ∧ Rust.Compressor.new .double 0 64 = .ok rust ∧
      (Cpp.appends cpp [.compress (5000, 7)]).2.bytes =
        (Rust.appends rust [.batch [(4294972296, 7)]]).2.finish := by
  refine ⟨_, _, Cpp.BasicCompressor.new_eq 0 (by decide), Rust.Compressor.new_eq 0 64, ?_⟩
  refine (envelopes_eq_iff (Cpp.BasicCompressor.new_eq 0 (by decide)) (Rust.Compressor.new_eq 0 64) ?_ ?_ (by decide)
    (by decide)).1.2 ⟨rfl, rfl, .cons (by decide) .nil⟩
  · decide +kernel
  · decide +kernel

end Gorillats
