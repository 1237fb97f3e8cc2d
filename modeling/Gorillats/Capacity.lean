import Gorillats.EndOfStream
/-!
# Capacity — how many bits a point takes

A timestamp takes at most 36 bits and a value at most 13 more than its width: a block header in front of all its bits.
-/
namespace Gorillats

open BitString BitParser

variable {T : ValueType}

theorem length_dodCode_le (dod : I64) : (dodCode dod).length ≤ 36 := by
  unfold dodCode
  split_ifs <;> simp

theorem sigBits_le {width : Nat} {lz tz : Int} (hlz : 0 ≤ lz) (htz : 0 ≤ tz) : sigBits width lz tz ≤ width := by
  unfold sigBits
  omega

theorem length_valCode_le {width : Nat} {s : GtValState} (hs : WinOk width s) (hw : width ≤ 64) {bits : U64}
    (hb : bits.toNat < 2 ^ width) : (valCode width s bits).length ≤ width + 13 := by
  unfold valCode
  dsimp only
  by_cases hv : s.hasValue = false
  · rw [if_pos hv, length_toBits]
    omega
  rw [if_neg hv]
  by_cases hx : bits ^^^ s.prevBits = 0
  · rw [if_pos hx, List.length_singleton]
    omega
  rw [if_neg hx]
  by_cases hr : s.reuses (bits ^^^ s.prevBits) width
  · obtain ⟨h1, -, h3, -⟩ := hs.window hr.1
    have hsig : sigBits width s.prevLz s.prevTz ≤ width := sigBits_le h1 h3
    rw [if_pos hr, List.length_append, length_toBits]
    simp only [List.length_cons, List.length_nil]
    omega
  · obtain ⟨h1, -, h3, -, -⟩ := xor_window hx hw (xor_lt hb hs.bits)
    have hsig : sigBits width (xorLz (bits ^^^ s.prevBits) width) (gtCtz64 (bits ^^^ s.prevBits)) ≤ width :=
      sigBits_le h1 h3
    rw [if_neg hr]
    simp only [List.length_append, length_toBits, List.length_cons, List.length_nil]
    omega

/-- The most bits a point takes. -/
def ValueType.maxPointBits : ValueType → Nat
  | double => 113
  | float => 81

theorem ValueType.maxPointBits_eq (T : ValueType) : T.maxPointBits = T.width + 49 := by cases T <;> rfl

theorem length_code_le {e : CoderState} (h : WinOk T.width e.vs) (p : Point T) :
    ((pointCoder T).code e p).length ≤ T.maxPointBits := by
  have hts := length_dodCode_le (e.ts.dod p.1)
  have hval := length_valCode_le h T.width_le (T.toBits_lt p.2)
  change (dodCode (e.ts.dod p.1) ++ valCode T.width e.vs (T.toBits p.2)).length ≤ T.maxPointBits
  rw [List.length_append, T.maxPointBits_eq]
  omega

/-- **A stream takes at most `maxPointBits` a point**, after its header. -/
theorem length_stream_le (t0 : I64) (pts : List (Point T)) :
    (stream T t0 pts).length ≤ 64 + T.maxPointBits * pts.length := by
  have hstart : WinOk T.width (startState t0).vs := winOk_init _
  have hcodes := (pointCoder T).length_codes_le (fun _ p h => WinOk.nextPoint h p) (fun _ p h => length_code_le h p) pts
    hstart
  rw [length_stream]
  omega

/-- **A buffer for the worst case takes every point**, however they are cut into calls. -/
theorem runCalls_of_worst_case {buf : List U8} {calls : List (Call T)}
    (hcap : 8 + (T.maxPointBits * (fed calls).length + 7) / 8 ≤ buf.length) (t0 : I64) :
    (∀ r ∈ (runCalls (T.create (some buf) t0) calls).1, r.1 = .ok) ∧
      accepted (runCalls (T.create (some buf) t0) calls).1 = (fed calls).length := by
  have h8 : 8 ≤ buf.length := by omega
  have hfit : (stream T t0 (fed calls)).length ≤ 8 * buf.length := by
    have := length_stream_le t0 (fed calls)
    omega
  obtain ⟨rs, c, hrun, hans, hack⟩ := runCalls_create (T := T) buf t0 calls h8
  rw [hrun]
  refine ⟨fun r hr => ?_, ?_⟩
  · exact (hans.ok_or_overflow r hr).resolve_right fun hov =>
      absurd ((exists_overflow_iff h8 hans).1 ⟨r, hr, hov⟩) (by omega)
  · rw [hans.total, hack, fitting_of_le hfit]

end Gorillats
