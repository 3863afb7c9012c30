import Mathlib.Data.List.Induction
import SchemaFlow.Proofs.Entries.Agreement
import SchemaFlow.Proofs.Entries.Ordered

/-!
# Order of arrival

A table that keeps its entries in order of arrival is put in order by storing them one after the
other (`Entries.ofList`). This is a stable sort: entries of one place stay in the order in which they
arrived (`atPlace_ofList`), and no two ordered tables have the same entries at every place
(`Ordered.ext`). So a table may be edited while it is in order of arrival, and put in order at the
end.

* `ofList_put`, `ofList_erase`: editing and putting in order commute.
* `Arrived`: a table in order of arrival against one that is kept in order, entry by entry.
-/

namespace SchemaFlow

namespace Entries

variable {α β : Type}

/-! ## 1. The entries of one place -/

/-- The entries that stand at one place. -/
def atPlace (r : Nat) (es : Entries α) : Entries α := es.filter fun e => rank e.1 = r

theorem atPlace_cons (r : Nat) (e : String × α) (es : Entries α) :
    atPlace r (e :: es) = if rank e.1 = r then e :: es.atPlace r else es.atPlace r := by
  simp only [atPlace, List.filter_cons, decide_eq_true_eq]

theorem atPlace_append (r : Nat) (es fs : Entries α) :
    atPlace r (es ++ fs) = es.atPlace r ++ fs.atPlace r := List.filter_append es fs

theorem mem_atPlace_rank {e : String × α} {es : Entries α} :
    e ∈ es.atPlace (rank e.1) ↔ e ∈ es := by
  simp [atPlace]

theorem atPlace_replace (r : Nat) (name : String) (v : α) (es : Entries α) :
    (es.replace name v).atPlace r = (es.atPlace r).replace name v := by
  rw [atPlace, replace, List.filter_map]
  refine congrArg (List.map _) (List.filter_congr fun e _ => ?_)
  by_cases he : e.1 = name
  · simp [he]
  · simp [he]

theorem atPlace_erase (r : Nat) (name : String) (es : Entries α) :
    (es.erase name).atPlace r = (es.atPlace r).erase name := by
  rw [atPlace, erase, erase, atPlace, List.filter_filter, List.filter_filter]
  exact List.filter_congr fun e _ => Bool.and_comm _ _

/-- No entry stands at a place in front of all others. -/
theorem Ordered.atPlace_eq_nil {r : Nat} {e : String × α} {es : Entries α}
    (h : Ordered (e :: es)) (hr : r < rank e.1) : atPlace r (e :: es) = [] := by
  refine List.filter_eq_nil_iff.2 fun f hf => ?_
  have hle : rank e.1 ≤ rank f.1 := by
    rcases List.mem_cons.1 hf with rfl | hf
    · exact Nat.le_refl _
    · exact (List.pairwise_cons.1 h).1 f hf
  simp only [decide_eq_true_eq]
  omega

/-- What is stored newly comes last at its place. -/
theorem Ordered.atPlace_insertNew (r : Nat) {name : String} {v : α} : ∀ {es : Entries α},
    es.Ordered → (Entries.insertNew name v es).atPlace r = es.atPlace r ++ atPlace r [(name, v)]
  | [], _ => rfl
  | e :: es, h => by
      rw [Entries.insertNew]
      split
      · rename_i hbefore
        rw [atPlace_cons, atPlace_cons r (name, v) []]
        split
        · rename_i hr
          rw [h.atPlace_eq_nil (hr ▸ precedes_iff.1 hbefore)]
          rfl
        · exact (List.append_nil _).symm
      · rw [atPlace_cons, atPlace_cons, Ordered.atPlace_insertNew r (List.pairwise_cons.1 h).2]
        split <;> rfl

/-- **An ordered table is determined by the entries of each place.** -/
theorem Ordered.ext : ∀ {es fs : Entries α}, es.Ordered → fs.Ordered →
    (∀ r, es.atPlace r = fs.atPlace r) → es = fs
  | [], [], _, _, _ => rfl
  | [], f :: fs, _, _, h => by
      have hf : f ∈ atPlace (rank f.1) (f :: fs) := mem_atPlace_rank.2 List.mem_cons_self
      rw [← h] at hf
      cases hf
  | e :: es, [], _, _, h => by
      have he : e ∈ atPlace (rank e.1) (e :: es) := mem_atPlace_rank.2 List.mem_cons_self
      rw [h] at he
      cases he
  | e :: es, f :: fs, hes, hfs, h => by
      -- neither of the first entries stands in front of the other
      have hplace : rank e.1 = rank f.1 := by
        rcases Nat.lt_trichotomy (rank e.1) (rank f.1) with hlt | heq | hlt
        · have he := h (rank e.1)
          rw [hfs.atPlace_eq_nil hlt, atPlace_cons, if_pos rfl] at he
          cases he
        · exact heq
        · have hf := h (rank f.1)
          rw [hes.atPlace_eq_nil hlt, atPlace_cons, if_pos rfl] at hf
          cases hf
      have hfirst : e = f ∧ atPlace (rank e.1) es = atPlace (rank e.1) fs := by
        have hr := h (rank e.1)
        rw [atPlace_cons, if_pos rfl, atPlace_cons, if_pos hplace.symm] at hr
        exact List.cons.inj hr
      have hrest : ∀ r, atPlace r es = atPlace r fs := by
        intro r
        by_cases hr : rank e.1 = r
        · exact hr ▸ hfirst.2
        · have hlater := h r
          rwa [atPlace_cons, if_neg hr, atPlace_cons, if_neg (hplace ▸ hr)] at hlater
      rw [hfirst.1, Ordered.ext (List.pairwise_cons.1 hes).2 (List.pairwise_cons.1 hfs).2 hrest]

/-! ## 2. Putting a table in order -/

theorem ofList_concat (es : Entries α) (e : String × α) :
    ofList (es ++ [e]) = (ofList es).insert e.1 e.2 := by
  rw [ofList, List.foldl_append]
  rfl

theorem ordered_ofList (es : Entries α) : (ofList es).Ordered := by
  induction es using List.reverseRecOn with
  | nil => exact ordered_nil
  | append_singleton es e ih =>
      rw [ofList_concat]
      exact ih.insert e.1 e.2

theorem Distinct.of_concat {es : Entries α} {e : String × α} (h : Distinct (es ++ [e])) :
    es.Distinct ∧ es.find? e.1 = none := by
  have hnames : (es.names ++ [e.1]).Nodup := by
    rwa [Distinct, names, List.map_append] at h
  obtain ⟨hes, -, hnew⟩ := List.nodup_append.1 hnames
  exact ⟨hes, find?_eq_none_iff.2 fun hmem => hnew e.1 hmem e.1 List.mem_cons_self rfl⟩

theorem Distinct.find?_ofList {es : Entries α} (hd : es.Distinct) (name : String) :
    (ofList es).find? name = es.find? name := by
  induction es using List.reverseRecOn with
  | nil => rfl
  | append_singleton es e ih =>
      obtain ⟨hes, hnew⟩ := hd.of_concat
      rw [ofList_concat, find?_insert, find?_append, find?_cons, find?_nil, ih hes]
      by_cases hn : name = e.1
      · rw [if_pos hn, if_pos hn.symm, hn, hnew]
        rfl
      · rw [if_neg hn, if_neg fun h => hn h.symm, Option.or_none]

/-- **Putting in order is stable**: entries of one place stay in the order in which they arrived. -/
theorem Distinct.atPlace_ofList {es : Entries α} (hd : es.Distinct) (r : Nat) :
    (ofList es).atPlace r = es.atPlace r := by
  induction es using List.reverseRecOn with
  | nil => rfl
  | append_singleton es e ih =>
      obtain ⟨hes, hnew⟩ := hd.of_concat
      have hnone : (ofList es).has e.1 = false := by
        rw [has_eq_false_iff, hes.find?_ofList, hnew]
      rw [ofList_concat, Entries.insert, if_neg (by simp [hnone]),
        (ordered_ofList es).atPlace_insertNew, ih hes, atPlace_append]

/-- A table that is in order stays as it is. -/
theorem Distinct.ofList_eq {es : Entries α} (hd : es.Distinct) (ho : es.Ordered) :
    ofList es = es := (ordered_ofList es).ext ho hd.atPlace_ofList

/-- **An entry may be put into a table before or after it is put in order.** -/
theorem Distinct.ofList_put {es : Entries α} (hd : es.Distinct) (name : String) (v : α) :
    ofList (es.put name v) = (ofList es).insert name v := by
  by_cases hhas : es.has name = true
  · have hin : (ofList es).has name = true := by
      rwa [has, hd.find?_ofList]
    have hput : es.put name v = es.replace name v := if_pos hhas
    have hreplaced : (es.replace name v).Distinct := hput ▸ hd.put name v
    rw [hput, Entries.insert, if_pos hin]
    refine (ordered_ofList _).ext ((ordered_ofList es).replace name v) fun r => ?_
    rw [hreplaced.atPlace_ofList, atPlace_replace, atPlace_replace, hd.atPlace_ofList]
  · rw [Entries.put, if_neg hhas]
    exact ofList_concat es (name, v)

/-- **A name may be removed from a table before or after it is put in order.** -/
theorem Distinct.ofList_erase {es : Entries α} (hd : es.Distinct) (name : String) :
    ofList (es.erase name) = (ofList es).erase name := by
  refine (ordered_ofList _).ext ((ordered_ofList es).erase name) fun r => ?_
  rw [(hd.erase name).atPlace_ofList, atPlace_erase, atPlace_erase, hd.atPlace_ofList]

/-! ## 3. What arrived against what is kept in order -/

/-- Whether a table is settled depends on its names only. -/
theorem Parallel.settled {R : α → β → Prop} {es : Entries α} {fs : Entries β}
    (h : Parallel R es fs) (hfs : fs.Settled) : es.Settled where
  distinct := by
    rw [Distinct, h.names_eq]
    exact hfs.distinct
  ordered := by
    have hnames : fs.names.Pairwise fun k l => rank k ≤ rank l := List.pairwise_map.2 hfs.ordered
    rw [← h.names_eq, names, List.pairwise_map] at hnames
    exact hnames
  proper e he := by
    have hmem : e.1 ∈ fs.names := h.names_eq ▸ List.mem_map_of_mem he
    obtain ⟨f, hf, hname⟩ := List.mem_map.1 hmem
    exact hname ▸ hfs.proper f hf

/-- What a table holds in order of arrival another one holds in order. -/
structure Arrived (R : α → β → Prop) (es : Entries α) (fs : Entries β) : Prop where
  distinct : es.Distinct
  parallel : Parallel R (ofList es) fs

namespace Arrived

variable {R S : α → β → Prop} {es : Entries α} {fs : Entries β} {name : String} {v : α} {w : β}

theorem mono (hRS : ∀ v w, R v w → S v w) (h : Arrived R es fs) : Arrived S es fs :=
  ⟨h.distinct, h.parallel.mono hRS⟩

theorem of_settled (h : Parallel R es fs) (hfs : fs.Settled) : Arrived R es fs := by
  have hes := h.settled hfs
  refine ⟨hes.distinct, ?_⟩
  rwa [hes.distinct.ofList_eq hes.ordered]

theorem find? (h : Arrived R es fs) (name : String) :
    Option.Rel R (es.find? name) (fs.find? name) :=
  h.distinct.find?_ofList name ▸ h.parallel.find? name

theorem put (h : Arrived R es fs) (hvw : R v w) :
    Arrived R (es.put name v) (fs.insert name w) := by
  refine ⟨h.distinct.put name v, ?_⟩
  rw [h.distinct.ofList_put]
  exact h.parallel.insert hvw

theorem erase (h : Arrived R es fs) (name : String) :
    Arrived R (es.erase name) (fs.erase name) := by
  refine ⟨h.distinct.erase name, ?_⟩
  rw [h.distinct.ofList_erase]
  exact h.parallel.erase name

end Arrived

end Entries

end SchemaFlow
