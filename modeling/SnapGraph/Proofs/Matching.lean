import Mathlib
import SnapGraph.Circuit
import SnapGraph.Proofs.Bundle

/-! The matching around one vertex, and the table the matchings are written into. However the spokes
are ordered, every incoming edge is matched once or left over once, every outgoing edge is matched
once or stays free, and edges are left over only on one side. A table into which pairs with distinct
keys are written holds exactly these pairs. -/

namespace SnapGraph

namespace Spoke

def incomingIds (spokes : List Spoke) : List Nat := (spokes.filter (·.incoming)).map edge

def outgoingIds (spokes : List Spoke) : List Nat := (spokes.filter (!·.incoming)).map edge

theorem incomingIds_alternate (tip : Int) (rank : Nat) (outs ins : List Nat) :
    incomingIds (alternate tip rank outs ins) = ins := by
  fun_induction alternate tip rank outs ins <;> simp_all [incomingIds]

theorem outgoingIds_alternate (tip : Int) (rank : Nat) (outs ins : List Nat) :
    outgoingIds (alternate tip rank outs ins) = outs := by
  fun_induction alternate tip rank outs ins <;> simp_all [outgoingIds]

theorem incomingIds_perm {l l' : List Spoke} (h : l.Perm l') :
    (incomingIds l).Perm (incomingIds l') :=
  (h.filter _).map _

theorem outgoingIds_perm {l l' : List Spoke} (h : l.Perm l') :
    (outgoingIds l).Perm (outgoingIds l') :=
  (h.filter _).map _

end Spoke

namespace Bundle

theorem incomingIds_spokes (bs : List (Bundle Nat)) :
    Spoke.incomingIds (bs.flatMap spokes) =
      (bs.filter fun b => !b.edge.isDegenerate).flatMap backward := by
  induction bs with
  | nil => rfl
  | cons b bs ih =>
      have hcons : Spoke.incomingIds ((b :: bs).flatMap spokes) =
          Spoke.incomingIds b.spokes ++ Spoke.incomingIds (bs.flatMap spokes) := by
        simp [Spoke.incomingIds]
      rw [hcons, ih, List.filter_cons]
      by_cases hdeg : b.edge.isDegenerate
      · simp [Bundle.spokes, hdeg, Spoke.incomingIds]
      · simp [Bundle.spokes, hdeg, Spoke.incomingIds_alternate]

theorem outgoingIds_spokes (bs : List (Bundle Nat)) :
    Spoke.outgoingIds (bs.flatMap spokes) =
      (bs.filter fun b => !b.edge.isDegenerate).flatMap forward := by
  induction bs with
  | nil => rfl
  | cons b bs ih =>
      have hcons : Spoke.outgoingIds ((b :: bs).flatMap spokes) =
          Spoke.outgoingIds b.spokes ++ Spoke.outgoingIds (bs.flatMap spokes) := by
        simp [Spoke.outgoingIds]
      rw [hcons, ih, List.filter_cons]
      by_cases hdeg : b.edge.isDegenerate
      · simp [Bundle.spokes, hdeg, Spoke.outgoingIds]
      · simp [Bundle.spokes, hdeg, Spoke.outgoingIds_alternate]

end Bundle

/-- Whatever the compass says, the sort only moves the spokes of a star. -/
theorem Star.spokes_perm {sort : ComparisonSort Spoke} {compass : Compass} {s : Star Nat}
    {spokes : List Spoke} (h : s.spokes sort compass = .ok spokes) :
    spokes.Perm (s.bundles.flatMap Bundle.spokes) := by
  unfold Star.spokes at h
  split at h
  · rename_i hnil
    cases h
    rw [hnil]
  · rename_i first rest hcons
    obtain ⟨sorted, hsorted, hspokes⟩ := bind_eq_ok_iff.1 h
    cases hspokes
    rw [hcons]
    exact (sort.perm hsorted).cons first

theorem Star.eq_inconsistentOrder {sort : ComparisonSort Spoke} {compass : Compass} {s : Star Nat}
    {f : Fault} (h : s.spokes sort compass = .error f) : f = .inconsistentOrder := by
  unfold Star.spokes at h
  split at h
  · cases h
  · rename_i first rest _
    cases hsort : sort.sort (Spoke.compareBy (compass s.center first.tip)) rest with
    | ok sorted =>
        rw [hsort] at h
        cases h
    | error f' =>
        rw [hsort] at h
        cases h
        exact sort.fault hsort

namespace Matching

/-! ### One way through the spokes -/

theorem scan_incoming_perm (waiting : List Nat) (spokes : List Spoke) :
    ((scan waiting spokes).1.map Prod.fst ++ (scan waiting spokes).2.1).Perm
      (waiting ++ Spoke.incomingIds spokes) := by
  fun_induction scan waiting spokes with
  | case1 waiting => simp [Spoke.incomingIds]
  | case2 waiting s rest hs ih =>
      apply ih.trans
      simp [Spoke.incomingIds, hs, List.perm_middle.symm]
  | case3 s rest hs e waiting turns left free h ih =>
      rw [h] at ih
      simpa [Spoke.incomingIds, hs] using ih
  | case4 s rest hs turns left free h ih =>
      rw [h] at ih
      simpa [Spoke.incomingIds, hs] using ih

theorem scan_outgoing_perm (waiting : List Nat) (spokes : List Spoke) :
    ((scan waiting spokes).1.map Prod.snd ++ (scan waiting spokes).2.2).Perm
      (Spoke.outgoingIds spokes) := by
  fun_induction scan waiting spokes with
  | case1 waiting => simp [Spoke.outgoingIds]
  | case2 waiting s rest hs ih => simpa [Spoke.outgoingIds, hs] using ih
  | case3 s rest hs e waiting turns left free h ih =>
      rw [h] at ih
      simpa [Spoke.outgoingIds, hs] using ih
  | case4 s rest hs turns left free h ih =>
      rw [h] at ih
      have hids : Spoke.outgoingIds (s :: rest) = s.edge :: Spoke.outgoingIds rest := by
        simp [Spoke.outgoingIds, hs]
      rw [hids]
      exact List.perm_middle.trans (ih.cons s.edge)

/-! ### Wrapping around -/

theorem map_fst_zip_append_drop (l l' : List Nat) :
    (l.zip l').map Prod.fst ++ l.drop l'.length = l := by
  induction l generalizing l' with
  | nil => simp
  | cons a l ih =>
      cases l' with
      | nil => simp
      | cons b l' => simpa using ih l'

theorem map_snd_zip_append_drop (l l' : List Nat) :
    (l.zip l').map Prod.snd ++ l'.drop l.length = l' := by
  induction l generalizing l' with
  | nil => simp
  | cons a l ih =>
      cases l' with
      | nil => simp
      | cons b l' => simpa using ih l'

/-- Every incoming edge is matched once or left over once. -/
theorem ofSpokes_incoming_perm (spokes : List Spoke) :
    ((ofSpokes spokes).turns.map Prod.fst ++ (ofSpokes spokes).unmatched).Perm
      (Spoke.incomingIds spokes) := by
  have h := scan_incoming_perm [] spokes
  unfold ofSpokes
  rw [List.map_append, List.append_assoc, map_fst_zip_append_drop]
  exact h

/-- Every outgoing edge is matched once or stays free once, and no outgoing edge stays free while an
incoming one is left over. -/
theorem ofSpokes_outgoing_perm (spokes : List Spoke) :
    ∃ free, ((ofSpokes spokes).turns.map Prod.snd ++ free).Perm (Spoke.outgoingIds spokes) ∧
      ((ofSpokes spokes).unmatched = [] ∨ free = []) := by
  have h := scan_outgoing_perm [] spokes
  refine ⟨(scan [] spokes).2.2.drop (scan [] spokes).2.1.length, ?_, ?_⟩
  · unfold ofSpokes
    rw [List.map_append, List.append_assoc, map_snd_zip_append_drop]
    exact h
  · show (scan [] spokes).2.1.drop (scan [] spokes).2.2.length = [] ∨ _
    rw [List.drop_eq_nil_iff, List.drop_eq_nil_iff]
    exact Nat.le_total _ _

theorem length_turns (spokes : List Spoke) :
    (ofSpokes spokes).turns.length =
      min (Spoke.incomingIds spokes).length (Spoke.outgoingIds spokes).length := by
  obtain ⟨free, hout, hone⟩ := ofSpokes_outgoing_perm spokes
  have hin := (ofSpokes_incoming_perm spokes).length_eq
  have hout := hout.length_eq
  simp only [List.length_append, List.length_map] at hin hout
  rcases hone with h | h
  · rw [h] at hin
    simp only [List.length_nil] at hin
    omega
  · rw [h] at hout
    simp only [List.length_nil] at hout
    omega

theorem unmatched_eq_nil_iff (spokes : List Spoke) :
    (ofSpokes spokes).unmatched = [] ↔
      (Spoke.incomingIds spokes).length ≤ (Spoke.outgoingIds spokes).length := by
  have hin := (ofSpokes_incoming_perm spokes).length_eq
  have hlen := length_turns spokes
  rw [List.length_append, List.length_map] at hin
  rw [← List.length_eq_zero_iff]
  omega

end Matching

/-! ### The table of turns -/

theorem join_getElem?_setIfInBounds {α : Type} (table : Array (Option α)) (a e : Nat)
    (x : Option α) : ((table.setIfInBounds a x)[e]?).join =
      if a = e ∧ a < table.size then x else (table[e]?).join := by
  rw [Array.getElem?_setIfInBounds]
  by_cases hae : a = e
  · subst hae
    by_cases ha : a < table.size
    · simp [ha]
    · simp [ha]
  · simp [hae]

/-- An entry that is erased may also be missing. -/
theorem join_getElem?_setIfInBounds_none {α : Type} (table : Array (Option α)) (a e : Nat) :
    ((table.setIfInBounds a none)[e]?).join = if e = a then none else (table[e]?).join := by
  rw [join_getElem?_setIfInBounds]
  by_cases hea : e = a
  · subst hea
    by_cases he : e < table.size
    · simp [he]
    · simp [he]
  · simp [hea, Ne.symm hea]

theorem lt_size_of_join_getElem? {α : Type} {table : Array (Option α)} {e : Nat} {a : α}
    (h : (table[e]?).join = some a) : e < table.size := by
  by_contra he
  rw [Array.getElem?_eq_none (Nat.le_of_not_lt he)] at h
  cases h

theorem join_getElem?_replicate_none {α : Type} (n e : Nat) :
    ((Array.replicate n (none : Option α))[e]?).join = none := by
  rw [Array.getElem?_replicate]
  split <;> rfl

namespace Turns

theorem next?_setIfInBounds (turns : Turns) (a b e : Nat) :
    next? (turns.setIfInBounds a (some b)) e =
      if a = e ∧ a < turns.size then some b else turns.next? e :=
  join_getElem?_setIfInBounds turns a e (some b)

theorem size_record (turns : Turns) (pairs : List (Nat × Nat)) :
    (turns.record pairs).size = turns.size := by
  induction pairs generalizing turns with
  | nil => rfl
  | cons p pairs ih => exact (ih _).trans Array.size_setIfInBounds

/-- Pairs with distinct keys are found where they were written. -/
theorem next?_record {pairs : List (Nat × Nat)} (hkeys : (pairs.map Prod.fst).Nodup) (turns : Turns)
    {e f : Nat} (he : e < turns.size) :
    (turns.record pairs).next? e = some f ↔
      (e, f) ∈ pairs ∨ e ∉ pairs.map Prod.fst ∧ turns.next? e = some f := by
  induction pairs generalizing turns with
  | nil => simp [record]
  | cons p pairs ih =>
      obtain ⟨a, b⟩ := p
      obtain ⟨ha, hkeys⟩ := List.nodup_cons.1 hkeys
      have he' : e < (turns.setIfInBounds a (some b)).size := by
        rwa [Array.size_setIfInBounds]
      have hstep : (turns.record ((a, b) :: pairs)) =
          Turns.record (turns.setIfInBounds a (some b)) pairs := rfl
      rw [hstep, ih hkeys _ he', next?_setIfInBounds]
      by_cases hae : a = e
      · subst hae
        have hnot : ∀ f, (a, f) ∉ pairs := fun f hf =>
          ha (List.mem_map.2 ⟨(a, f), hf, rfl⟩)
        simp [he, ha, hnot, eq_comm]
      · simp [hae, Ne.symm hae]

theorem lt_size_of_next? {turns : Turns} {e f : Nat} (h : turns.next? e = some f) :
    e < turns.size := lt_size_of_join_getElem? h

theorem next?_replicate_none (n e : Nat) : next? (Array.replicate n none) e = none :=
  join_getElem?_replicate_none n e

end Turns

end SnapGraph
