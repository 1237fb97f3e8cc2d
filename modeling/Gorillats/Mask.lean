import Gorillats.Decoded
import Gorillats.Rebase
/-!
# Mask — a flipped bit of the first value

The first value is the only one that a stream holds as such: the others are XORs with the one before, and no branch of
`gt_val_decode` looks at the value it is in.  So bits flipped in the first value's field are flipped in every value that
is read, and nothing else changes.
-/
namespace Gorillats

open BitString BitParser

variable (ub : U64 → Int → U64) {T : ValueType}

def maskPoint (m : Value T) (p : Point T) : Point T := (p.1, p.2 ^^^ m)

def GtValState.mask (m : U64) (s : GtValState) : GtValState := { s with prevBits := s.prevBits ^^^ m }

def CoderState.mask (m : U64) (e : CoderState) : CoderState := { e with vs := e.vs.mask m }

theorem ofBits_xor (m : Value T) (bits : U64) : T.ofBits (bits ^^^ T.toBits m) = T.ofBits bits ^^^ m := by
  have hfloat : ∀ (b : U64) (m : BitVec 32), (b ^^^ m.setWidth 64).setWidth 32 = b.setWidth 32 ^^^ m := by
    intro b m
    rw [BitVec.setWidth_xor, BitVec.setWidth_setWidth_of_le _ (by decide), BitVec.setWidth_eq]
  cases T with
  | double => rfl
  | float => exact hfloat bits m

theorem toBits_xor (v m : Value T) : T.toBits (v ^^^ m) = T.toBits v ^^^ T.toBits m := by
  have hfloat : ∀ v m : BitVec 32, (v ^^^ m).setWidth 64 = v.setWidth 64 ^^^ m.setWidth 64 := fun _ _ => BitVec.setWidth_xor
  cases T with
  | double => rfl
  | float => exact hfloat v m

/-! ## The parsers -/

theorem xorParser_mask (m : U64) (s : GtValState) (width : Nat) :
    xorParser ub (s.mask m) width = (fun out => (out.1, out.2.mask m)) <$> xorParser ub s width := by
  unfold xorParser
  rw [map_bind]
  congr 1
  funext b
  cases b with
  | false =>
    rw [if_pos rfl, if_pos rfl, map_bind]
    rfl
  | true =>
    rw [if_neg (by decide), if_neg (by decide)]
    simp only [map_bind, map_pure]
    rfl

theorem xor_mask (a b m : U64) : a ^^^ m ^^^ b = a ^^^ b ^^^ m := by
  rw [BitVec.xor_assoc, BitVec.xor_comm m, ← BitVec.xor_assoc]

theorem valParser_mask (m : U64) {s : GtValState} (hv : s.hasValue = true) (width : Nat) :
    valParser ub (s.mask m) width = (fun out => (out.1 ^^^ m, out.2.mask m)) <$> valParser ub s width := by
  have hv' : ¬ s.hasValue = false := by
    rw [hv]
    decide
  unfold valParser
  rw [if_neg hv', if_neg (show ¬ (s.mask m).hasValue = false from hv'), map_bind]
  congr 1
  funext b
  cases b with
  | false => rfl
  | true =>
    rw [if_neg (by decide), if_neg (by decide), xorParser_mask, ← comp_map, ← comp_map]
    congr 1
    funext out
    simp only [Function.comp_apply, GtValState.mask, xor_mask]

theorem pointParser_mask (m : Value T) {e : CoderState} (hv : e.vs.hasValue = true) :
    pointParser ub T (e.mask (T.toBits m)) =
      (fun out => (maskPoint m out.1, out.2.mask (T.toBits m))) <$> pointParser ub T e := by
  unfold pointParser
  rw [show (e.mask (T.toBits m)).vs = e.vs.mask (T.toBits m) from rfl, valParser_mask ub _ hv]
  simp only [map_bind, map_pure, bind_map_left, ofBits_xor]
  rfl

/-! ## The streams -/

/-- The first value's field, behind the header and a timestamp word. -/
structure FirstField (T : ValueType) (data : List U8) (before : List Bool) (v : Value T) (after : List Bool) : Prop where
  timestamp : ∃ (t0 : I64) (w : List Bool) (dod : I64), before = toBits 64 t0.toNat ++ w ∧ Spells dodParser w dod
  bits      : unpack data = before ++ (toBits T.width (T.toBits v).toNat ++ after)

/-- The state after the first point. -/
def firstState (t0 dod : I64) (bits : U64) : CoderState :=
  ⟨⟨t0 + (dod + 0), dod + 0⟩, { prevBits := bits, hasValue := true }⟩

theorem pointParser_first (t0 : I64) {dod : I64} {w : List Bool} (hw : Spells dodParser w dod) (v : Value T) (rest : List Bool) :
    (pointParser ub T (startState t0)).run (w ++ (toBits T.width (T.toBits v).toNat ++ rest)) =
      some (((t0 + (dod + 0), v), firstState t0 dod (T.toBits v)), rest) := by
  have ht : (tsParser (startState t0).ts).run (w ++ (toBits T.width (T.toBits v).toNat ++ rest)) = _ :=
    run_map_of_eq_some _ (hw _)
  have hv : (valParser ub (startState t0).vs T.width).run (toBits T.width (T.toBits v).toNat ++ rest) = _ :=
    run_map_of_eq_some _ (field64_run_of_lt T.width (T.toBits v) rest (T.toBits_lt v))
  rw [pointParser, run_bind_of_eq_some ht, run_bind_of_eq_some hv, T.ofBits_toBits]
  rfl

/-- **Two buffers that differ by a mask in the first value's field** deliver the same points with their values masked. -/
theorem exists_delivers_mask {data data' : List U8} {before after : List Bool} {v m : Value T}
    (h : FirstField T data before v after) (h' : FirstField T data' before (v ^^^ m) after) :
    ∃ L : List (Point T), Delivers ub (T.openStream (some data)) L ∧
      Delivers ub (T.openStream (some data')) (L.map (maskPoint m)) := by
  obtain ⟨t0, w, dod, rfl, hw⟩ := h.timestamp
  have hbits := h.bits
  have hbits' := h'.bits
  rw [List.append_assoc] at hbits hbits'
  obtain ⟨d, hopen, hlive⟩ := open_live (T := T) hbits
  obtain ⟨d', hopen', hlive'⟩ := open_live (T := T) hbits'
  have hfirst := pointParser_first ub t0 hw v after
  have hfirst' := pointParser_first ub t0 hw (v ^^^ m) after
  have hstate : firstState t0 dod (T.toBits (v ^^^ m)) = (firstState t0 dod (T.toBits v)).mask (T.toBits m) := by
    rw [toBits_xor]
    rfl
  rw [hstate] at hfirst'
  -- behind the first value both readers read the same bits, the one in the other's state with its value masked
  obtain ⟨L, st, rest, hrun, hnone⟩ := exists_run (T := T) ub _ (firstState t0 dod (T.toBits v)) after (Nat.le_refl _)
  obtain ⟨hrun', hv⟩ := hrun.map_of_inv (q := pointParser ub T) (f := maskPoint m) (g := CoderState.mask (T.toBits m))
    (fun e => e.vs.hasValue = true) (fun s bits p s' rest hp _ => (takes_pointParser ub s _ _ _ hp).1.2.2)
    (fun s hs => pointParser_mask ub m hs) rfl
  refine ⟨(t0 + (dod + 0), v) :: L, ?_, ?_⟩
  · rw [hopen]
    exact hlive.delivers ub (.cons hfirst hrun) hnone
  · rw [hopen', List.map_cons]
    refine hlive'.delivers ub (.cons hfirst' hrun') ?_
    rw [pointParser_mask ub m hv, StateT.run_map, hnone]
    rfl

/-- **A bit of the first value is a bit of every value.**  Two buffers whose bits differ by a mask in the first value's
field, and nowhere else, give the same statuses, counts and timestamps for any calls, and values that all differ by that
mask; and through either wrapper's reader, with any count recorded. -/
theorem masked_reads (ub : U64 → Int → U64) {data data' : List U8} {before after : List Bool} {v m : Value T}
    (h : FirstField T data before v after) (h' : FirstField T data' before (v ^^^ m) after) :
    let masked : List (Point T) → List (Point T) := List.map (maskPoint m)
    (∀ calls : List DecodeCall, (runDecodeCalls ub T (T.openStream (some data')) calls).1 =
        (runDecodeCalls ub T (T.openStream (some data)) calls).1.map fun r => (r.1, masked r.2)) ∧
      ∀ count : U64,
        Cpp.readAll ub T (envelope T count data') = (Cpp.readAll ub T (envelope T count data)).map masked ∧
        Rust.readAll ub T (envelope T count data') =
          (Rust.readAll ub T (envelope T count data)).bind fun pts => .ok (masked pts) := by
  obtain ⟨L, hL, hL'⟩ := exists_delivers_mask ub h h'
  exact reads_map _ hL hL'

/-- The sign of the first of the readings. -/
theorem masked_reads_sign :
    Cpp.readAll maskedShl .double (envelope .double 3
        ([0, 0, 0, 0, 0, 0, 3, 232, 133, 32 ^^^ 64, 34, 128, 0, 0, 0, 0, 0, 16, 30, 0, 64])) =
      .ok (readings.map (maskPoint 0x8000000000000000)) := by
  have hspells : Spells dodParser (dodCode 10) 10 := fun rest => rfl
  have h : FirstField .double [0, 0, 0, 0, 0, 0, 3, 232, 133, 32, 34, 128, 0, 0, 0, 0, 0, 16, 30, 0, 64]
      (toBits 64 (1000 : I64).toNat ++ dodCode 10) 0x4045000000000000 ((unpack [16, 30, 0, 64]).drop 1) :=
    ⟨⟨1000, dodCode 10, 10, rfl, hspells⟩, by decide +kernel⟩
  have h' : FirstField .double [0, 0, 0, 0, 0, 0, 3, 232, 133, 32 ^^^ 64, 34, 128, 0, 0, 0, 0, 0, 16, 30, 0, 64]
      (toBits 64 (1000 : I64).toNat ++ dodCode 10) (0x4045000000000000 ^^^ 0x8000000000000000)
      ((unpack [16, 30, 0, 64]).drop 1) :=
    ⟨⟨1000, dodCode 10, 10, rfl, hspells⟩, by decide +kernel⟩
  have hread := ((masked_reads maskedShl h h').2 3).1
  exact hread.trans (by decide +kernel)

end Gorillats
