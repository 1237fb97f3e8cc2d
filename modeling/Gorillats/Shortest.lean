import Gorillats.Timestamps
/-!
# Shortest — the delta-of-delta code wastes no bit

The buckets' signed fields overlap, so most delta-of-deltas have several words that `gt_ts_decode` reads as them, one
for each field they fit (`spells_dodParser`).  `gt_ts_encode` takes the smallest of these fields, and a smaller field is a
shorter word.
-/
namespace Gorillats

open BitString BitParser

/-! ## The words of a delta-of-delta -/

theorem spells_field64 {n : Nat} {w : List Bool} {v : U64} (h : Spells (field64 n) w v) :
    w.length = n ∧ v = BitVec.ofNat 64 (ofBits w) := by
  obtain ⟨a, ha, rfl⟩ := h.of_map (local_field n)
  obtain ⟨hlen, rfl⟩ := ha.of_field
  exact ⟨hlen, rfl⟩

theorem signedLow_signedLow (v : I64) {n : Nat} (hn : n ≤ 64) : signedLow (signedLow v n) n = signedLow v n := by
  rw [signedLow, signedLow_setWidth v hn, ← signedLow]

theorem toBits_signedLow (v : I64) {n : Nat} (hn : n ≤ 64) : toBits n (signedLow v n).toNat = toBits n v.toNat := by
  have h := congrArg BitVec.toNat (signedLow_setWidth v hn)
  rw [BitVec.toNat_setWidth, BitVec.toNat_setWidth] at h
  rw [← toBits_mod n n _ (Nat.le_refl n), h, toBits_mod n n _ (Nat.le_refl n)]

/-- **A signed field spells only what fits it**, and only in the low bits of what it spells. -/
theorem spells_signed {n : Nat} (h0 : 0 < n) (hn : n < 64) {w : List Bool} {dod : I64}
    (h : Spells (do return gtSignExtend (← field64 n) n) w dod) :
    w = toBits n dod.toNat ∧ gtFitsSigned dod n = true := by
  have hmap : Spells ((fun v => gtSignExtend v n) <$> field64 n) w dod := by rwa [map_eq_pure_bind]
  obtain ⟨v, hv, rfl⟩ := hmap.of_map (local_field64 n)
  obtain ⟨hlen, rfl⟩ := spells_field64 hv
  have hlt : ofBits w < 2 ^ n := hlen ▸ ofBits_lt w
  have hnat := toNat_ofNat_of_lt (Nat.le_of_lt hn) hlt
  have hsign := gtSignExtend_field (BitVec.ofNat 64 (ofBits w)) h0 hn
  rw [hnat, Nat.mod_eq_of_lt hlt] at hsign
  rw [hsign]
  constructor
  · rw [toBits_signedLow _ (by omega), hnat, ← hlen, toBits_ofBits]
  · rw [gtFitsSigned_iff _ hn, ← signedLow_eq_iff _ h0 hn]
    exact signedLow_signedLow _ (by omega)

/-- **The words of a delta-of-delta**: the single bit of 0, and one word for each field that it fits. -/
theorem spells_dodParser {w : List Bool} {dod : I64} (h : Spells dodParser w dod) :
    w = [false] ∧ dod = 0 ∨
    w = [true, false] ++ toBits 7 dod.toNat ∧ gtFitsSigned dod 7 = true ∨
    w = [true, true, false] ++ toBits 9 dod.toNat ∧ gtFitsSigned dod 9 = true ∨
    w = [true, true, true, false] ++ toBits 12 dod.toNat ∧ gtFitsSigned dod 12 = true ∨
    w = [true, true, true, true] ++ toBits 32 dod.toNat := by
  rcases h.of_bit_ite with ⟨w, rfl, h₁⟩ | ⟨w, rfl, h₁⟩
  · obtain ⟨rfl, rfl⟩ := h₁.of_pure
    exact .inl ⟨rfl, rfl⟩
  rcases h₁.of_bit_ite with ⟨w, rfl, h₂⟩ | ⟨w, rfl, h₂⟩
  · obtain ⟨rfl, hfit⟩ := spells_signed (by decide) (by decide) h₂
    exact .inr (.inl ⟨rfl, hfit⟩)
  rcases h₂.of_bit_ite with ⟨w, rfl, h₃⟩ | ⟨w, rfl, h₃⟩
  · obtain ⟨rfl, hfit⟩ := spells_signed (by decide) (by decide) h₃
    exact .inr (.inr (.inl ⟨rfl, hfit⟩))
  rcases h₃.of_bit_ite with ⟨w, rfl, h₄⟩ | ⟨w, rfl, h₄⟩
  · obtain ⟨rfl, hfit⟩ := spells_signed (by decide) (by decide) h₄
    exact .inr (.inr (.inr (.inl ⟨rfl, hfit⟩)))
  · obtain ⟨rfl, -⟩ := spells_signed (by decide) (by decide) h₄
    exact .inr (.inr (.inr (.inr rfl)))

/-! ## The shortest one -/

/-- **The codeword is the one shortest word.** -/
theorem shortest_dodCode {dod : I64} (h : InRange dod) : Shortest dodParser (dodCode dod) dod where
  spells rest := by rw [dodParser_dodCode, (signedLow_32_eq_iff dod).2 h]
  lt w hw hne := by
    have hwords := spells_dodParser hw
    unfold dodCode at hne ⊢
    by_cases h0 : dod = 0
    · rw [if_pos h0] at hne ⊢
      rcases hwords with ⟨rfl, -⟩ | ⟨rfl, -⟩ | ⟨rfl, -⟩ | ⟨rfl, -⟩ | rfl
      · exact absurd rfl hne
      all_goals simp
    rw [if_neg h0] at hne ⊢
    -- the words of smaller fields do not hold it, that of its own field is the codeword, and the others are longer
    split_ifs at hne ⊢ with h7 h9 h12
    · rcases hwords with ⟨-, hd⟩ | ⟨rfl, -⟩ | ⟨rfl, -⟩ | ⟨rfl, -⟩ | rfl
      · exact absurd hd h0
      · exact absurd rfl hne
      all_goals simp
    · rcases hwords with ⟨-, hd⟩ | ⟨-, hfit⟩ | ⟨rfl, -⟩ | ⟨rfl, -⟩ | rfl
      · exact absurd hd h0
      · exact absurd hfit h7
      · exact absurd rfl hne
      all_goals simp
    · rcases hwords with ⟨-, hd⟩ | ⟨-, hfit⟩ | ⟨-, hfit⟩ | ⟨rfl, -⟩ | rfl
      · exact absurd hd h0
      · exact absurd hfit h7
      · exact absurd hfit h9
      · exact absurd rfl hne
      · simp
    · rcases hwords with ⟨-, hd⟩ | ⟨-, hfit⟩ | ⟨-, hfit⟩ | ⟨-, hfit⟩ | rfl
      · exact absurd hd h0
      · exact absurd hfit h7
      · exact absurd hfit h9
      · exact absurd hfit h12
      · exact absurd rfl hne

/-! ## The decoder -/

theorem readTs_dod (s : GtTsState) (dod : I64) : s.dod (s.prevTs + (dod + s.prevDelta)) = dod := by
  rw [GtTsState.dod, BitVec.add_comm s.prevTs, BitVec.add_sub_cancel, BitVec.add_sub_cancel]

theorem spells_tsParser {s t : GtTsState} {w : List Bool} {ts : I64} (h : Spells (tsParser s) w (ts, t)) :
    Spells dodParser w (s.dod ts) := by
  obtain ⟨dod, hdod, heq⟩ := h.of_map local_dodParser
  cases heq
  rwa [readTs_dod]

/-- **Timestamp codewords are the one shortest.**  What `gt_ts_encode` writes for a delta-of-delta of 32 bits is read by
`gt_ts_decode` as the timestamp, to its last bit and whatever follows, and any other word that it reads as that
timestamp in the same state is longer. -/
theorem timestamp_code_shortest (s : GtTsState) (ts : I64) (h : InRange (s.dod ts)) :
    (∀ w, gtTsEncode w s ts = (putList w (dodCode (s.dod ts)), s.next ts)) ∧
      (∀ r rest, Reads r (dodCode (s.dod ts) ++ rest) →
        ∃ r', gtTsDecode s r = ((.ok ts, s.next ts), r') ∧ Reads r' rest) ∧
      ∀ word r rest t r', Reads r (word ++ rest) → gtTsDecode s r = ((.ok ts, t), r') → Reads r' rest →
        word ≠ dodCode (s.dod ts) → (dodCode (s.dod ts)).length < word.length := by
  have hshort := shortest_dodCode h
  refine ⟨fun w => gtTsEncode_eq w s ts, fun r rest hr => ?_, fun word r rest t r' hr hout hr' hne => ?_⟩
  · refine (decodes_ts s).of_some hr ?_
    rw [tsParser, run_map_of_eq_some _ (hshort.spells rest), prevTs_add_dod, prevDelta_add_dod, GtTsState.next]
  · exact hshort.lt word (spells_tsParser ((decodes_ts s).spells (local_tsParser s) hr hout hr')) hne

/-- From a timestamp 1000 and a delta 10: a delta of 73, at the upper end of the 7-bit field. -/
theorem timestamp_code_shortest_at_63 :
    (∀ w, gtTsEncode w ⟨1000, 10⟩ 1073 = (putList w (dodCode 63), ⟨1073, 73⟩)) ∧
      (∀ r rest, Reads r (dodCode 63 ++ rest) →
        ∃ r', gtTsDecode ⟨1000, 10⟩ r = ((.ok 1073, ⟨1073, 73⟩), r') ∧ Reads r' rest) ∧
      ∀ word r rest t r', Reads r (word ++ rest) → gtTsDecode ⟨1000, 10⟩ r = ((.ok 1073, t), r') → Reads r' rest →
        word ≠ dodCode 63 → (dodCode 63).length < word.length :=
  timestamp_code_shortest ⟨1000, 10⟩ 1073 (by decide)

end Gorillats
