import Mathlib.Data.List.Nodup
import MacScheduler.Terminal.Roster

/-!
# Rosters without duplicates

Terminals come and go one by one and keep their identifiers in between, so a
roster that starts without duplicates never gets any.
-/

namespace MacScheduler.Roster

variable {r : Roster} {rnti : Rnti} {t t' : Terminal}

theorem of_get? (h : r.get? rnti = some t) : t ∈ r ∧ t.rnti = rnti :=
  ⟨List.mem_of_find?_eq_some h, by simpa using List.find?_some h⟩

theorem not_mem_of_get?_eq_none (h : r.get? rnti = none) : rnti ∉ r.map (·.rnti) := by
  intro hmem
  obtain ⟨t, ht, hrnti⟩ := List.mem_map.mp hmem
  simpa [hrnti] using List.find?_eq_none.mp h t ht

theorem get?_eq_some_iff (hnodup : (r.map (·.rnti)).Nodup) :
    r.get? rnti = some t ↔ t ∈ r ∧ t.rnti = rnti := by
  constructor
  · exact of_get?
  · rintro ⟨ht, rfl⟩
    cases hget : r.get? t.rnti with
    | none => exact (not_mem_of_get?_eq_none hget (List.mem_map_of_mem ht)).elim
    | some u =>
        obtain ⟨hu, hrnti⟩ := of_get? hget
        rw [List.inj_on_of_nodup_map hnodup hu ht hrnti]

theorem get?_map {f : Terminal → Terminal} (hf : ∀ t, (f t).rnti = t.rnti) (r : Roster)
    (rnti : Rnti) : Roster.get? (r.map f) rnti = (r.get? rnti).map f := by
  simp only [get?, List.find?_map, Function.comp_def, hf]

theorem mem_update (h : t' ∈ r.update t) : t' = t ∨ t' ∈ r := by
  obtain ⟨u, hu, heq⟩ := List.mem_map.mp h
  split at heq
  · exact .inl heq.symm
  · exact .inr (heq ▸ hu)

theorem rntis_update (r : Roster) (t : Terminal) : (r.update t).map (·.rnti) = r.map (·.rnti) := by
  rw [update, List.map_map]
  apply List.map_congr_left
  intro u _
  by_cases hu : u.rnti = t.rnti <;> simp [hu]

theorem update_self (hnodup : (r.map (·.rnti)).Nodup) (ht : t ∈ r) : r.update t = r := by
  have hsame : ∀ u ∈ r, (if u.rnti = t.rnti then t else u) = u := by
    intro u hu
    split
    · rename_i hrnti
      exact List.inj_on_of_nodup_map hnodup ht hu hrnti.symm
    · rfl
  rw [update, List.map_congr_left hsame, List.map_id']

theorem mem_insert (h : t' ∈ r.insert t) : t' = t ∨ t' ∈ r := by
  induction r with
  | nil => exact .inl (List.mem_singleton.mp h)
  | cons u r ih =>
      rw [insert] at h
      split at h
      · exact List.mem_cons.mp h
      · split at h
        · exact (List.mem_cons.mp h).imp_right (List.mem_cons_of_mem u)
        · rcases List.mem_cons.mp h with rfl | h
          · exact .inr List.mem_cons_self
          · exact (ih h).imp_right (List.mem_cons_of_mem u)

theorem nodup_insert (hnodup : (r.map (·.rnti)).Nodup) (hnew : t.rnti ∉ r.map (·.rnti)) :
    ((r.insert t).map (·.rnti)).Nodup := by
  induction r with
  | nil => exact List.nodup_singleton _
  | cons u r ih =>
      obtain ⟨hu, hr⟩ := List.nodup_cons.mp hnodup
      obtain ⟨hne, hrest⟩ := not_or.mp fun h ↦ hnew (List.mem_cons.mpr h)
      by_cases hlt : t.rnti.val < u.rnti.val
      · rw [insert, if_pos hlt]
        exact List.nodup_cons.mpr ⟨hnew, hnodup⟩
      · rw [insert, if_neg hlt, if_neg hne]
        refine List.nodup_cons.mpr ⟨fun hmem ↦ ?_, ih hr hrest⟩
        obtain ⟨v, hv, hvu⟩ := List.mem_map.mp hmem
        rcases mem_insert hv with rfl | hv
        · exact hne hvu
        · exact hu (List.mem_map.mpr ⟨v, hv, hvu⟩)

theorem nodup_erase (hnodup : (r.map (·.rnti)).Nodup) (rnti : Rnti) :
    ((r.erase rnti).map (·.rnti)).Nodup :=
  hnodup.sublist (List.filter_sublist.map _)

end MacScheduler.Roster
