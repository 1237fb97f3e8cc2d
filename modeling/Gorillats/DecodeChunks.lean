import Gorillats.EndOfStream
/-!
# DecodeChunks — a decompressor is a queue of points

Every buffer of at least eight bytes holds some list of points, which its decompressor delivers (`exists_delivers`).
However they are asked for, one at a time or in batches, each call takes the next ones off the front
(`Delivers.call`), so the schedule of calls does not show.
-/
namespace Gorillats

open BitString BitParser

variable (ub : U64 → Int → U64) {T : ValueType}

/-! ## Every buffer delivers -/

theorem pointParser_consumes {st st' : CoderState} {bits rest : List Bool} {p : Point T}
    (h : (pointParser ub T st).run bits = some ((p, st'), rest)) : rest.length < bits.length := by
  cases bits with
  | nil =>
    rw [pointParser_nil] at h
    cases h
  | cons b bits =>
    -- the timestamp's first bit is consumed whatever follows
    obtain ⟨w, hw, hall⟩ := local_pointParser ub st _ _ _ h
    have hne : w ≠ [] := by
      rintro rfl
      have hnil := hall []
      rw [List.nil_append, pointParser_nil] at hnil
      cases hnil
    rw [hw, List.length_append]
    have := List.length_pos_of_ne_nil hne
    omega

theorem exists_run : ∀ (n : Nat) (st : CoderState) (bits : List Bool), bits.length ≤ n →
    ∃ pts st' rest, Run (pointParser ub T) st bits pts st' rest ∧ (pointParser ub T st').run rest = none
  | 0, st, bits, h => by
    rw [List.eq_nil_of_length_eq_zero (Nat.le_zero.1 h)]
    exact ⟨[], st, [], .nil st [], pointParser_nil ub st⟩
  | n + 1, st, bits, h => by
    cases hp : (pointParser ub T st).run bits with
    | none => exact ⟨[], st, bits, .nil st bits, hp⟩
    | some out =>
      obtain ⟨⟨p, st₁⟩, rest₁⟩ := out
      have hlt := pointParser_consumes ub hp
      obtain ⟨pts, st', rest, hrun, hnone⟩ := exists_run n st₁ rest₁ (by omega)
      exact ⟨p :: pts, st', rest, .cons hp hrun, hnone⟩

/-- **Any buffer of eight bytes or more delivers some list of points**, and then the end. -/
theorem exists_delivers {data : List U8} (h8 : 8 ≤ data.length) :
    ∃ pts : List (Point T), Delivers ub (T.openStream (some data)) pts := by
  obtain ⟨d, hopen, hlive⟩ := open_header (T := T) h8
  obtain ⟨pts, st', rest, hrun, hnone⟩ := exists_run ub _ _ ((unpack data).drop 64) (Nat.le_refl _)
  rw [hopen]
  exact ⟨pts, hlive.delivers ub hrun hnone⟩

/-! ## The queue -/

variable {ub} {d : Option GorillatsDecompressor} {L : List (Point T)}

theorem take_append_replicate {α : Type} (a : α) (as : List α) (n : Nat) :
    (as ++ List.replicate (n + 1) a).take n = (as ++ List.replicate n a).take n := by
  rw [List.replicate_succ', ← List.append_assoc, List.take_append_of_le_length (by simp)]

theorem Delivers.next_cons {p : Point T} (h : Delivers ub d (p :: L)) :
    ∃ d', T.next ub d = (.ok p, d') ∧ Delivers ub d' L := by
  have hstep : ∀ n, (T.next ub d).1 = .ok p ∧ (decompressEach ub T n (T.next ub d).2).1 =
      (L.map Except.ok ++ List.replicate n (Except.error Status.errEof)).take n := by
    intro n
    have hn := h (n + 1)
    rw [decompressEach_succ, List.map_cons, List.cons_append, List.take_succ_cons, take_append_replicate] at hn
    exact List.cons.inj hn
  exact ⟨_, Prod.ext (hstep 0).1 rfl, fun n => (hstep n).2⟩

/-- On an empty queue it answers the end, and the queue stays empty. -/
theorem Delivers.next_nil (h : Delivers ub d ([] : List (Point T))) :
    ∃ d', T.next ub d = (.error .errEof, d') ∧ Delivers ub d' ([] : List (Point T)) := by
  have hstep : ∀ n, (T.next ub d).1 = .error .errEof ∧ (decompressEach ub T n (T.next ub d).2).1 =
      (List.replicate n (Except.error Status.errEof)).take n := by
    intro n
    have hn := h (n + 1)
    rw [decompressEach_succ, List.map_nil, List.nil_append, List.replicate_succ, List.take_succ_cons] at hn
    exact List.cons.inj hn
  exact ⟨_, Prod.ext (hstep 0).1 rfl, fun n => (hstep n).2⟩

theorem Delivers.some (h : Delivers ub d L) : ∃ g, d = some g ∧ g.width = T.width := by
  have hne : (T.next ub d).1 ≠ .error .errArg := by
    cases L with
    | nil =>
      obtain ⟨d', hd, -⟩ := h.next_nil
      simp [hd]
    | cons p L =>
      obtain ⟨d', hd, -⟩ := h.next_cons
      simp [hd]
  rw [T.next_eq] at hne
  cases d with
  | none => exact absurd rfl hne
  | some g =>
    refine ⟨g, rfl, ?_⟩
    by_contra hw
    rw [decompressNextWidth] at hne
    simp only [ne_eq, hw, not_false_eq_true, true_or, if_true] at hne
    exact hne rfl

/-- **The batch loop takes points off the queue**, and stops where it is empty. -/
theorem Delivers.loop : ∀ (n : Nat) {g : GorillatsDecompressor} {L : List (Point T)}, Delivers ub (.some g) L →
    ∃ pts g', decompressLoop ub T.width n g = (pts, if n ≤ L.length then .ok else .errEof, g') ∧
      (pts.map fun p => (p.1, T.ofBits p.2)) = L.take n ∧ Delivers ub (.some g') (L.drop n)
  | 0, g, L, h => ⟨[], g, rfl, rfl, h⟩
  | n + 1, g, L, h => by
    obtain ⟨_, hg, hw⟩ := h.some
    cases hg
    obtain ⟨rc, g₁, hd⟩ : ∃ rc g₁, decodePoint ub T.width g = (rc, g₁) := ⟨_, _, rfl⟩
    have hnext := next_of_decodePoint ub hw hd
    rw [decompressLoop, hd]
    cases L with
    | nil =>
      obtain ⟨d', hd', hrest⟩ := h.next_nil
      obtain ⟨hrc, rfl⟩ := Prod.mk.inj (hnext.symm.trans hd')
      cases rc with
      | ok p => cases hrc
      | error e =>
        cases hrc
        exact ⟨[], g₁, by simp, rfl, hrest⟩
    | cons p L =>
      obtain ⟨d', hd', hrest⟩ := h.next_cons
      obtain ⟨hrc, rfl⟩ := Prod.mk.inj (hnext.symm.trans hd')
      cases rc with
      | error e => cases hrc
      | ok q =>
        obtain ⟨pts, g', hloop, hpts, hdrop⟩ := Delivers.loop n hrest
        refine ⟨q :: pts, g', ?_, ?_, hdrop⟩
        · simp only [hloop, List.length_cons, Nat.succ_le_succ_iff]
        · rw [List.map_cons, hpts, List.take_succ_cons]
          exact congrArg (· :: L.take n) (Except.ok.inj hrc)

theorem Delivers.decodeBatch (h : Delivers ub d L) (n : Nat) :
    ∃ d', T.decodeBatch ub d n = (if n ≤ L.length then .ok else .errEof, L.take n, d') ∧ Delivers ub d' (L.drop n) := by
  obtain ⟨g, rfl, hw⟩ := h.some
  obtain ⟨pts, g', hloop, hpts, hrest⟩ := h.loop n
  have hlen := congrArg List.length hpts
  rw [List.length_map, List.length_take] at hlen
  have hrc : (if pts.length = n then Status.ok else if n ≤ L.length then .ok else .errEof)
      = if n ≤ L.length then .ok else .errEof := by
    by_cases hn : n ≤ L.length
    · rw [if_pos hn, ite_self]
    · rw [if_neg hn, if_neg (by omega)]
  refine ⟨.some g', ?_, hrest⟩
  rw [ValueType.decodeBatch_some ub hw, hloop, hpts, hrc]

/-- **Every call takes its points off the queue**, and succeeds when there are as many. -/
theorem Delivers.call (h : Delivers ub d L) (call : DecodeCall) :
    ∃ d', call.run ub T d = ((if call.size ≤ L.length then .ok else .errEof, L.take call.size), d') ∧
      Delivers ub d' (L.drop call.size) := by
  cases call with
  | next =>
    cases L with
    | nil =>
      obtain ⟨d', hd, hrest⟩ := h.next_nil
      exact ⟨d', by rw [DecodeCall.run, hd]; rfl, hrest⟩
    | cons p L =>
      obtain ⟨d', hd, hrest⟩ := h.next_cons
      exact ⟨d', by rw [DecodeCall.run, hd]; simp [DecodeCall.size], hrest⟩
  | batch n =>
    obtain ⟨d', hd, hrest⟩ := h.decodeBatch n
    exact ⟨d', by rw [DecodeCall.run, hd]; rfl, hrest⟩

/-- Next calls that all succeeded answered with the front of the queue. -/
theorem Delivers.eq_take (h : Delivers ub d L) {n : Nat} {pts : List (Point T)}
    (hpts : (decompressEach ub T n d).1 = pts.map Except.ok) : n ≤ L.length ∧ pts = L.take n := by
  have hle : n ≤ L.length := by
    by_contra hlt
    have heof : (Except.error Status.errEof : Except Status (Point T)) ∈ pts.map Except.ok := by
      rw [← hpts, h n, List.take_append, List.take_of_length_le (by simp; omega), List.mem_append]
      refine .inr ?_
      rw [List.take_replicate, List.mem_replicate, List.length_map]
      exact ⟨by omega, rfl⟩
    simp at heof
  refine ⟨hle, ?_⟩
  rw [h n, List.take_append_of_le_length (by rwa [List.length_map]), ← List.map_take] at hpts
  exact (List.map_injective_iff.2 (fun _ _ => Except.ok.inj) hpts).symm

/-! ## A run of calls -/

/-- What a run of calls answers on a queue. -/
def popEach : List (Point T) → List DecodeCall → List (Status × List (Point T))
  | _, [] => []
  | L, call :: calls =>
    (if call.size ≤ L.length then .ok else .errEof, L.take call.size) :: popEach (L.drop call.size) calls

theorem Delivers.runDecodeCalls : ∀ (calls : List DecodeCall) {d : Option GorillatsDecompressor} {L : List (Point T)},
    Delivers ub d L → (Gorillats.runDecodeCalls ub T d calls).1 = popEach L calls
  | [], _, _, _ => rfl
  | call :: calls, d, L, h => by
    obtain ⟨d', hcall, hrest⟩ := h.call call
    rw [Gorillats.runDecodeCalls, hcall, popEach]
    simp only
    rw [hrest.runDecodeCalls calls]

theorem flatMap_popEach : ∀ (calls : List DecodeCall) (L : List (Point T)),
    (popEach L calls).flatMap (·.2) = L.take (calls.map DecodeCall.size).sum
  | [], L => by simp [popEach]
  | call :: calls, L => by
    rw [popEach, List.flatMap_cons, flatMap_popEach calls, List.map_cons, List.sum_cons, List.take_add]

theorem popEach_status : ∀ (calls : List DecodeCall) (L : List (Point T)),
    List.Forall₂ (fun call r => r.1 = if r.2.length = call.size then .ok else .errEof) calls (popEach L calls)
  | [], _ => .nil
  | call :: calls, L => by
    refine .cons ?_ (popEach_status calls _)
    rw [List.length_take]
    split_ifs <;> first | rfl | omega

theorem popEach_nil : ∀ calls : List DecodeCall, popEach ([] : List (Point T)) calls =
    calls.map fun call => (if call.size = 0 then .ok else .errEof, [])
  | [] => rfl
  | call :: calls => by
    rw [popEach, List.drop_nil, popEach_nil calls, List.take_nil, List.map_cons]
    simp

theorem popEach_ended : ∀ (calls : List DecodeCall) (L : List (Point T)),
    (calls.zip (popEach L calls)).Pairwise fun a b => a.2.1 = .errEof →
      b.2 = (if b.1.size = 0 then .ok else .errEof, [])
  | [], _ => .nil
  | call :: calls, L => by
    rw [popEach, List.zip_cons_cons, List.pairwise_cons]
    refine ⟨fun b hb heof => ?_, popEach_ended calls _⟩
    -- the call emptied the queue
    have hdrop : L.drop call.size = [] := by
      simp only at heof
      split at heof
      · cases heof
      · exact List.drop_eq_nil_of_le (by omega)
    rw [hdrop, popEach_nil, List.zip_map_right, List.mem_map] at hb
    obtain ⟨⟨x, y⟩, hxy, rfl⟩ := hb
    obtain rfl : x = y := by
      obtain ⟨i, hi, he⟩ := List.getElem_of_mem hxy
      rw [List.getElem_zip] at he
      exact (congrArg Prod.fst he).symm.trans (congrArg Prod.snd he)
    rfl

/-- **How the points are asked for does not show.**  On any buffer of eight bytes or more, a schedule of single and
batch calls delivers what as many single calls deliver; a call succeeds when it delivered what it asked for; after the
end was met once, every call that asks for a point answers `GORILLATS_ERR_EOF` and delivers none. -/
theorem runDecodeCalls_chunking (ub : U64 → Int → U64) (T : ValueType) {data : List U8} (h8 : 8 ≤ data.length)
    (calls : List DecodeCall) :
    let rs := (runDecodeCalls ub T (T.openStream (some data)) calls).1
    let n := (calls.map DecodeCall.size).sum
    (decompressEach ub T n (T.openStream (some data))).1 = (rs.flatMap (·.2)).map Except.ok ++
        List.replicate (n - (rs.flatMap (·.2)).length) (Except.error Status.errEof) ∧
      List.Forall₂ (fun call r => r.1 = if r.2.length = call.size then .ok else .errEof) calls rs ∧
      (calls.zip rs).Pairwise fun a b => a.2.1 = .errEof → b.2 = (if b.1.size = 0 then .ok else .errEof, []) := by
  intro rs n
  obtain ⟨L, hL⟩ := exists_delivers (T := T) ub h8
  have hrs : rs = popEach L calls := hL.runDecodeCalls calls
  rw [hrs]
  refine ⟨?_, popEach_status calls L, popEach_ended calls L⟩
  rw [hL n, flatMap_popEach, List.take_append, List.length_map, List.map_take, List.take_replicate, List.length_take]
  congr 2
  omega

theorem runDecodeCalls_chunking_garbage :
    let rs := (runDecodeCalls maskedShl .float (ValueType.float.openStream (some (List.replicate 24 0xA7)))
      [.batch 2, .next, .batch 0, .batch 5]).1
    let n := ([.batch 2, .next, .batch 0, .batch 5].map DecodeCall.size).sum
    (decompressEach maskedShl .float n (ValueType.float.openStream (some (List.replicate 24 0xA7)))).1 =
        (rs.flatMap (·.2)).map Except.ok ++
          List.replicate (n - (rs.flatMap (·.2)).length) (Except.error Status.errEof) ∧
      List.Forall₂ (fun (call : DecodeCall) r => r.1 = if r.2.length = call.size then .ok else .errEof)
        ([.batch 2, .next, .batch 0, .batch 5] : List DecodeCall) rs ∧
      ([DecodeCall.batch 2, .next, .batch 0, .batch 5].zip rs).Pairwise fun a b => a.2.1 = .errEof →
        b.2 = (if b.1.size = 0 then .ok else .errEof, []) :=
  runDecodeCalls_chunking maskedShl .float (by decide) [.batch 2, .next, .batch 0, .batch 5]

end Gorillats
