import Gorillats.DecodeLog
import Gorillats.Decoded
/-!
# Drain — draining any bytes comes to an end

Every point takes two bits at least, so a buffer holds no more points than half its bits, and the end is for good.  A
window read from any bytes leaves its block's own number of significant bits (`Windowed`), from 1 to 64, even where its
trailing zeros are negative, so no field is empty or wider than 64 bits.
-/
namespace Gorillats

open BitString BitParser Logged

variable (ub : U64 → Int → U64) {T : ValueType}

/-! ## Field widths -/

/-- A window leaves from 1 to 64 significant bits. -/
def Windowed (width : Nat) (s : GtValState) : Prop :=
  1 ≤ width - s.prevLz - s.prevTz ∧ width - s.prevLz - s.prevTz ≤ 64

instance (width : Nat) (s : GtValState) : Decidable (Windowed width s) := inferInstanceAs (Decidable (_ ∧ _))

/-- Fields of 1 to 64 bits only. -/
def Event.fieldOk : Event → Prop
  | getBits nbits => 1 ≤ nbits ∧ nbits ≤ 64
  | _ => True

theorem Placed.getBits_lt {r : GtReader} (h : Placed r) {n : Nat} (hn : n ≤ 64) : (gtGetBits n r).1.toNat < 2 ^ n := by
  have hlt := ofBits_lt (r.rest.takeD n false)
  rw [List.takeD_length] at hlt
  rw [h.toNat_getBits hn]
  exact hlt

namespace LoggedDecoder

theorem meets_getBit {E : Event → Prop} : Meets Placed (act gtGetBit) E fun _ => Placed :=
  meets_act fun _ h => h.getBit.2.2.1

theorem meets_eof {E : Event → Prop} : Meets Placed (act get) E fun _ => Placed := meets_act fun _ h => h

/-- Half done or done, a window stays inside 64 bits. -/
theorem meets_checkEof {E : Event → Prop} {width : Nat} {half done : Except Status U64 × GtValState}
    (hhalf : Windowed width half.2) (hdone : Windowed width done.2) :
    Meets Placed (do if (← act get).eof then return half else return done) E
      fun out r => Windowed width out.2 ∧ Placed r :=
  meets_eof.bind fun _ => .ite (fun _ => meets_pure fun _ h => ⟨hhalf, h⟩) fun _ => meets_pure fun _ h => ⟨hdone, h⟩

theorem meets_add {E : Event → Prop} {a b : I64} (h : E (.add a b)) : Meets Placed (add a b) E fun _ => Placed :=
  (meets_emit h).bind fun _ => meets_pure fun _ h => h

theorem meets_shl {E : Event → Prop} {x : U64} {n : Int} (h : E (.shl n)) : Meets Placed (shl ub x n) E fun _ => Placed :=
  (meets_emit h).bind fun _ => meets_pure fun _ h => h

section Fields

variable {E : Event → Prop} (hfield : ∀ n, 1 ≤ n → n ≤ 64 → E (.getBits n))

include hfield

theorem meets_getBits {n : Int} (h1 : 1 ≤ n) (h64 : n ≤ 64) :
    Meets Placed (getBits n) E fun v r => v.toNat < 2 ^ n.toNat ∧ Placed r :=
  (meets_emit (hfield n h1 h64)).bind fun _ => meets_act fun _ h => ⟨h.getBits_lt (by omega), (h.getBits _).2.2⟩

theorem meets_readDod : Meets Placed readDod E fun _ => Placed := by
  have hsigned : ∀ {n : Int} (m : Nat), 1 ≤ n → n ≤ 64 →
      Meets Placed (do return gtSignExtend (← getBits n) m) E fun _ => Placed := by
    intro n m h1 h64
    exact (meets_getBits hfield h1 h64).bind fun _ => meets_pure fun _ h => h.2
  refine meets_getBit.bind fun _ => .ite (fun _ => meets_pure fun _ h => h) fun _ => ?_
  refine meets_getBit.bind fun _ => .ite (fun _ => hsigned _ (by decide) (by decide)) fun _ => ?_
  refine meets_getBit.bind fun _ => .ite (fun _ => hsigned _ (by decide) (by decide)) fun _ => ?_
  exact meets_getBit.bind fun _ => .ite (fun _ => hsigned _ (by decide) (by decide)) fun _ =>
    hsigned _ (by decide) (by decide)

theorem meets_tsDecode (hadd : ∀ a b, E (.add a b)) (s : GtTsState) : Meets Placed (tsDecode s) E fun _ => Placed :=
  (meets_readDod hfield).bind fun _ => meets_eof.bind fun _ => .ite (fun _ => meets_pure fun _ h => h) fun _ =>
    (meets_add (hadd ..)).bind fun _ => (meets_add (hadd ..)).bind fun _ => meets_pure fun _ h => h

/-- **A block read leaves its own significant bits**, whatever its header says. -/
theorem meets_readXor (hshl : ∀ n, E (.shl n)) {s : GtValState} {width : Nat} (hs : Windowed width s) :
    Meets Placed (readXor ub s width) E fun out r => Windowed width out.2 ∧ Placed r := by
  refine meets_getBit.bind fun _ => .ite (fun _ => ?_) fun _ => ?_
  · refine (meets_getBits hfield hs.1 hs.2).bind fun _ => meets_and fun _ => ?_
    exact (meets_shl ub (hshl _)).bind fun _ => meets_pure fun _ h => ⟨hs, h⟩
  · refine (meets_getBits hfield (by decide) (by decide)).bind fun _ => meets_and fun _ => ?_
    refine (meets_getBits hfield (by decide) (by decide)).bind fun n => meets_and fun hn => ?_
    have hn' : n.toNat < 2 ^ 6 := hn
    refine (meets_getBits hfield (by omega) (by omega)).bind fun _ => meets_and fun _ => ?_
    refine (meets_shl ub (hshl _)).bind fun _ => meets_pure fun _ h => ⟨?_, h⟩
    unfold Windowed
    simp only
    constructor <;> omega

theorem meets_valDecode (hshl : ∀ n, E (.shl n)) {s : GtValState} {width : Nat} (hs : Windowed width s) (h1 : 1 ≤ width)
    (h64 : width ≤ 64) :
    Meets Placed (valDecode ub s width) E fun out r => Windowed width out.2 ∧ Placed r := by
  refine .ite (fun _ => ?_) fun _ => ?_
  · refine (meets_getBits hfield (by omega) (by omega)).bind fun _ => meets_and fun _ => ?_
    exact meets_checkEof hs hs
  · refine meets_getBit.bind fun _ => .ite (fun _ => ?_) fun _ => ?_
    · exact meets_checkEof hs hs
    · refine (meets_readXor ub hfield hshl hs).bind fun out => meets_and fun hout => ?_
      exact meets_checkEof hout hout

end Fields

theorem fieldOk_getBits : ∀ n, 1 ≤ n → n ≤ 64 → Event.fieldOk (.getBits n) := fun _ h1 h64 => ⟨h1, h64⟩

theorem meets_point (ts : GtTsState) {vs : GtValState} {width : Nat} (hs : Windowed width vs) (h1 : 1 ≤ width)
    (h64 : width ≤ 64) :
    Meets Placed (point ub width ts vs) Event.fieldOk fun out r => Windowed width out.2.2 ∧ Placed r := by
  refine (meets_tsDecode fieldOk_getBits (fun _ _ => trivial) ts).bind ?_
  rintro ⟨rc | t, tss⟩
  · exact meets_pure fun _ h => ⟨hs, h⟩
  · refine (meets_valDecode ub fieldOk_getBits (fun _ => trivial) hs h1 h64).bind ?_
    rintro ⟨rc | bits, vss⟩
    · exact meets_pure fun _ h => h
    · exact meets_pure fun _ h => h

end LoggedDecoder

/-- What every decoder keeps, also past the end: its reader inside the buffer and its window inside 64 bits. -/
structure Decoding (T : ValueType) (d : GorillatsDecompressor) : Prop where
  placed   : Placed d.r
  windowed : Windowed T.width d.vs

theorem decoding_start {d : GorillatsDecompressor} {t0 : I64} {bits : List Bool} (h : Live T d (startState t0) bits) :
    Decoding T d := by
  refine ⟨h.reads.placed, ?_⟩
  rw [h.start.2]
  cases T <;> decide

/-- **Every field is 1 to 64 bits wide**, and stays so. -/
theorem Decoding.decodePoint {d : GorillatsDecompressor} (h : Decoding T d) :
    (∀ e ∈ d.events ub T.width, e.fieldOk) ∧ Decoding T (decodePoint ub T.width d).2 := by
  obtain ⟨hE, hQ⟩ := LoggedDecoder.meets_point ub d.ts h.windowed T.one_le_width T.width_le d.r h.placed
  refine ⟨hE, ?_⟩
  rw [erase_decodePoint]
  exact ⟨hQ.2, hQ.1⟩

/-! ## Draining -/

/-- Points and then ends: after an end there are only ends. -/
theorem pairwise_answers (pts : List (Point T)) (n : Nat) :
    (pts.map Except.ok ++ List.replicate n (Except.error Status.errEof)).Pairwise
      fun a b => a = Except.error Status.errEof → b = Except.error Status.errEof := by
  rw [List.pairwise_append]
  refine ⟨?_, ?_, ?_⟩
  · rw [List.pairwise_map]
    exact List.pairwise_of_forall fun _ _ h => by cases h
  · exact List.pairwise_replicate.2 (.inr fun _ => rfl)
  · intro a ha b hb _
    exact List.eq_of_mem_replicate hb

/-- **Draining any byte string ends.**  `k` points take at least `width + 1 + 2 * (k - 1)` bits of the buffer, the end is
for good, and in every state the calls reach the fields read are 1 to 64 bits wide. -/
theorem drain_ends {data : List U8} (h8 : 8 ≤ data.length) :
    (∀ ubs, let rs := (decompressEachBy T ubs (T.openStream (some data))).1
      (1 ≤ (delivered rs).length → T.width + 1 + 2 * ((delivered rs).length - 1) ≤ 8 * (data.length - 8)) ∧
        rs.Pairwise fun a b => a = .error .errEof → b = .error .errEof) ∧
      ∀ calls, ∀ d ∈ decodeStates T (T.openStream (some data)) calls, ∀ ub n, .getBits n ∈ d.events ub T.width →
        1 ≤ n ∧ n ≤ 64 := by
  constructor
  · intro ubs rs
    obtain ⟨pts, n, hrs, hdrained⟩ := drain_open (T := T) h8 ubs
    have hrs' : rs = _ := hrs
    rw [hrs', delivered_answers]
    refine ⟨fun hpos => ?_, pairwise_answers pts n⟩
    have hroom := hdrained.room (List.ne_nil_of_length_pos hpos)
    have hleast : (startState (headerTs data)).vs.least T.width = T.width := rfl
    omega
  · intro calls d hd ub n hn
    obtain ⟨d₀, d', hlive, hvisits⟩ := visits_open (T := T) h8 calls
    have hstep : ∀ ub d, Decoding T d → Decoding T (Gorillats.decodePoint ub T.width d).2 :=
      fun ub _ h => (h.decodePoint ub).2
    exact ((hvisits.forall hstep (decoding_start hlive) d hd).decodePoint ub).1 _ hn

theorem drain_ends_garbage :
    (∀ ubs, let rs := (decompressEachBy .float ubs (ValueType.float.openStream (some (List.replicate 24 0xA7)))).1
      (1 ≤ (delivered rs).length →
        ValueType.float.width + 1 + 2 * ((delivered rs).length - 1) ≤ 8 * ((List.replicate 24 (0xA7 : U8)).length - 8)) ∧
        rs.Pairwise fun a b => a = .error .errEof → b = .error .errEof) ∧
      ∀ calls, ∀ d ∈ decodeStates .float (ValueType.float.openStream (some (List.replicate 24 0xA7))) calls, ∀ ub n,
        .getBits n ∈ d.events ub ValueType.float.width → 1 ≤ n ∧ n ≤ 64 :=
  drain_ends (by decide)

end Gorillats
