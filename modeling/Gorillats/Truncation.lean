import Gorillats.ReadPaths
import Gorillats.Writers
/-!
# Truncation — a C++ stream that lost its tail

The last byte of a stream holds a bit of its last point, so a proper prefix holds fewer points than its header records,
whatever the timestamps were: both C++ read paths throw on it, or the header itself is cut and refused.
-/
namespace Gorillats

open BitString BitParser

variable (ub : U64 → Int → U64) {T : ValueType}

/-! ## A cut stream delivers fewer points -/

/-- A buffer that holds the first bits of a stream, and no more, delivers the points that fit there, up to their
timestamps' high bits. -/
theorem delivers_of_cut_near {data : List U8} {t0 : I64} {pts : List (Point T)} {cap : Nat} (h8 : 8 ≤ cap)
    (hdata : unpack data = (stream T t0 pts).take (8 * cap)) (hlt : 8 * cap < (stream T t0 pts).length) :
    ∃ out, Delivers ub (T.openStream (some data)) out ∧ List.Forall₂ NearPoint (fitting cap t0 pts) out := by
  obtain ⟨d, hopen, hlive, hroom⟩ := open_cut h8 hdata hlt
  obtain ⟨out, s', rest, hnear, hrun, hnone⟩ := (near_lockstep ub).cut_run (local_pointParser ub) (near_start t0)
    ((pointCoder T).admits_of_forall _ (fun _ _ => trivial) _ pts) hroom
  rw [hopen]
  exact ⟨out, hlive.delivers ub hrun hnone, hnear⟩

theorem length_fitting_lt {cap : Nat} {t0 : I64} {pts : List (Point T)} (h8 : 8 ≤ cap)
    (hlt : 8 * cap < (stream T t0 pts).length) : (fitting cap t0 pts).length < pts.length := by
  by_contra hge
  have hfit := (isGreatest_fitting t0 pts h8).1.2
  rw [List.take_of_length_le (by omega)] at hfit
  omega

/-! ## Prefixes of an envelope -/

theorem take_envelope (T : ValueType) (count : U64) (payload : List U8) (m : Nat) :
    (envelope T count payload).take (headerSize + m) = envelope T count (payload.take m) := by
  have hhead : (magic ++ [T.tag] ++ [0, 0, 0] ++ leBytes count).length = headerSize := by
    simp [magic, headerSize]
  unfold envelope
  rw [← hhead, List.take_length_add_append]

namespace Cpp

/-! ## Every truncation is detected -/

/-- A payload that lost its tail, under a header that records all its points: both read paths throw. -/
theorem truncated_payload {t0 : I64} {pts : List (Point T)} {m : Nat} (hne : pts ≠ [])
    (hfits : pts.length ≤ maxLen pointSize) (hcut : m < (pack (stream T t0 pts)).length) :
    let r : BasicDecompressor T :=
      ⟨envelope T (BitVec.ofNat 64 pts.length) ((pack (stream T t0 pts)).take m), BitVec.ofNat 64 pts.length⟩
    r.toVector ub = .error (.runtimeError "gorillats: truncated stream") ∧
      r.decodeInto ub = .error (.runtimeError "gorillats: truncated stream") := by
  intro r
  have hcount : (BitVec.ofNat 64 pts.length).toNat = pts.length := by
    rw [toNat_ofNat_of_lt (Nat.le_refl 64) (lt_of_le_maxLen hfits)]
  have hn : r.count.toNat ≤ maxLen pointSize := by rwa [show r.count.toNat = pts.length from hcount]
  have hpayload : r.data.drop headerSize = (pack (stream T t0 pts)).take m := drop_envelope ..
  rw [length_pack] at hcut
  rcases Nat.lt_or_ge m 8 with hm | hm
  · -- the cut is inside `t0`: the payload does not open
    have hopen : T.openStream (some (r.data.drop headerSize)) = none := by
      rw [hpayload]
      exact openStream_of_lt (by rw [List.length_take]; omega)
    have hpos : r.count ≠ 0 := by
      intro hzero
      rw [show r.count = BitVec.ofNat 64 pts.length from rfl] at hzero
      rw [hzero] at hcount
      exact hne (List.eq_nil_of_length_eq_zero hcount.symm)
    exact ⟨r.toVector_of_null ub hopen hpos hn, r.decodeInto_of_null ub hopen hpos⟩
  · have hbits : unpack (r.data.drop headerSize) = (stream T t0 pts).take (8 * m) := by
      rw [hpayload, unpack_take, unpack_pack, List.take_append_of_le_length (by omega)]
    obtain ⟨out, hout, hnear⟩ := delivers_of_cut_near ub hm hbits (by omega)
    have hfew : ¬ r.count.toNat ≤ out.length := by
      have hlt' : (fitting m t0 pts).length < pts.length := length_fitting_lt hm (by omega)
      rw [show r.count.toNat = pts.length from hcount, ← hnear.length_eq]
      omega
    exact ⟨by rw [r.toVector_of_delivers ub hout hn, if_neg hfew],
      by rw [r.decodeInto_of_delivers ub hout, if_neg hfew]⟩

/-- **The C++ reader detects every truncation** of what a compressor wrote into a buffer that the platform's memory holds:
the header is refused, or both read paths throw. -/
theorem truncation_detected {t0 : I64} {capacity : Nat} {c : BasicCompressor T} {calls : List (Call T)} {pre : List U8}
    (hcap : capacity ≤ addressSpace) (hnew : BasicCompressor.new T t0 capacity = .ok c)
    (hok : ∀ out ∈ (appends c calls).1, out = .ok ()) (hne : fed calls ≠ []) (hpre : pre <+: (appends c calls).2.bytes)
    (hproper : pre ≠ (appends c calls).2.bytes) :
    (∃ what, BasicDecompressor.new T pre = .error (.invalidArgument what)) ∨
      ∃ r, BasicDecompressor.new T pre = .ok r ∧ (∃ what, r.toVector ub = .error (.runtimeError what)) ∧
        ∃ what, r.decodeInto ub = .error (.runtimeError what) := by
  obtain ⟨h8, rfl⟩ := capacity_of_new hnew
  have hfit := (appends_ok_iff t0 h8 calls).1 hok
  obtain ⟨g, hc, henc⟩ := appends_of_fits t0 h8 calls hfit
  have hbytes := henc.streamBytes_of_fits (by rwa [List.length_replicate])
  rw [hc, BasicCompressor.bytes_eq, hbytes] at hpre hproper
  rcases Nat.lt_or_ge pre.length headerSize with hshort | hlong
  · -- the cut is inside the header
    exact .inl (new_of_not_headerOk fun h => absurd h.length (Nat.not_le.2 hshort)).1
  · right
    obtain ⟨m, hm⟩ := Nat.exists_eq_add_of_le hlong
    have htake := List.prefix_iff_eq_take.1 hpre
    rw [hm, take_envelope] at htake
    have hcut : m < (pack (stream T t0 (fed calls))).length := by
      by_contra hge
      rw [List.take_of_length_le (by omega)] at htake
      exact hproper htake
    obtain ⟨hvec, hinto⟩ := truncated_payload ub hne (length_le_maxLen hcap hfit) hcut
    subst htake
    exact ⟨_, new_envelope .., ⟨_, hvec⟩, ⟨_, hinto⟩⟩

theorem truncation_detected_readings :
    let c : BasicCompressor .double := { raw := ValueType.double.create (some (List.replicate 40 0)) 1000, count := 0 }
    let data := (appends c [.batch readings]).2.bytes
    (∃ what, BasicDecompressor.new .double (data.take 27) = .error (.invalidArgument what)) ∨
      ∃ r, BasicDecompressor.new .double (data.take 27) = .ok r ∧
        (∃ what, r.toVector maskedShl = .error (.runtimeError what)) ∧
        ∃ what, r.decodeInto maskedShl = .error (.runtimeError what) :=
  truncation_detected maskedShl (by decide) (show BasicCompressor.new .double 1000 40 = .ok _ by decide +kernel)
    (by decide +kernel) (by decide) (List.take_prefix _ _) (by decide +kernel)

end Cpp

end Gorillats
