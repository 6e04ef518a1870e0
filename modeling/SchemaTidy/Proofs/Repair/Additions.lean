import Mathlib.Data.List.Nodup
import SchemaTidy.Proofs.Schema.References
import SchemaTidy.Proofs.Schema.Tables
import SchemaTidy.Repair

/-! # What a repair adds

A repair declares the slots of some candidates of its policy, in their order, under different names
that the document does not have (`repairDocument_spec`). Which ones is said by `Picked`, place by
place in the list of candidates, and by `Chosen`, name by name. Every candidate that is called for is
declared then (`declared_of_demand`). -/

namespace SchemaTidy.RepairPolicy
open Schema

variable {p : RepairPolicy} {d : Document} {taken : List String} {cs : List Candidate}
  {c : Candidate} {classes : List String}

/-- The slot of a candidate under its name. -/
def entry (c : Candidate) : String × SlotDef := (c.name, c.slot)

theorem names_map_entry (cs : List Candidate) : Table.names (cs.map entry) = cs.map (·.name) := by
  rw [Table.names, List.map_map]
  rfl

/-! ## Candidates that are called for -/

/-- A document calls for a candidate when it does not declare the slot and as many classes refer to
it as the threshold says, and at least one. -/
def Calls (d : Document) (c : Candidate) : Prop :=
  c.name ∉ d.slots.names ∧ max 1 c.threshold ≤ (d.referrers c.name).length

instance (d : Document) (c : Candidate) : Decidable (Calls d c) :=
  inferInstanceAs (Decidable (_ ∧ _))

theorem demand_eq_some_iff :
    demand d c = some classes ↔ d.references.get? c.name = some classes ∧
      max c.threshold 1 ≤ classes.length ∧ c.name ∉ d.slots.names := by
  rw [← Table.contains_iff_mem_names, demand]
  cases d.references.get? c.name with
  | none => simp
  | some found =>
    dsimp only
    split
    next hcond =>
      refine ⟨nofun, ?_⟩
      rintro ⟨heq, hlen, hnew⟩
      rw [← Option.some.inj heq] at hlen
      rcases Bool.or_eq_true_iff.1 hcond with hfew | hdeclared
      · exact absurd hlen (Nat.not_le.2 (of_decide_eq_true hfew))
      · exact absurd hdeclared hnew
    next hcond =>
      obtain ⟨hlen, hnew⟩ := not_or.1 (mt Bool.or_eq_true_iff.2 hcond)
      rw [decide_eq_true_iff, Nat.not_lt] at hlen
      refine ⟨fun heq => ⟨heq, ?_, hnew⟩, fun h => h.1⟩
      rw [← Option.some.inj heq]
      exact hlen

theorem demand_eq (d : Document) (c : Candidate) :
    demand d c = if Calls d c then some (d.referrers c.name) else none := by
  refine Option.ext fun classes => ?_
  rw [demand_eq_some_iff, Document.get?_references, Nat.max_comm]
  constructor
  · rintro ⟨hrefs, hlen, hnew⟩
    obtain rfl : d.referrers c.name = classes := by
      split at hrefs
      · cases hrefs
      · exact Option.some.inj hrefs
    rw [if_pos ⟨hnew, hlen⟩]
  · intro h
    split at h
    next hcalls =>
      obtain rfl := Option.some.inj h
      have hne : d.referrers c.name ≠ [] := fun hnil => by
        have := hcalls.2
        rw [hnil, List.length_nil] at this
        omega
      exact ⟨if_neg hne, hcalls.2, hcalls.1⟩
    next => cases h

theorem additions_cons (d : Document) (taken : List String) (c : Candidate) (cs : List Candidate) :
    additions d taken (c :: cs) =
      if Calls d c ∧ c.name ∉ taken then
        (⟨c.name, d.referrers c.name⟩, c.slot) :: additions d (c.name :: taken) cs
      else additions d taken cs := by
  rw [additions, demand_eq]
  by_cases hcalls : Calls d c
  · rw [if_pos hcalls]
    by_cases htaken : c.name ∈ taken <;> simp [hcalls, htaken]
  · rw [if_neg hcalls, if_neg fun h => hcalls h.1]

/-- The candidates, numbered from `k` on, that are taken: those that the document calls for, unless
the name is taken already or an earlier one of that name is taken. -/
structure Picked (d : Document) (taken : List String) (k : Nat) (cs : List Candidate)
    (picked : List (Candidate × Nat)) : Prop where
  sublist : picked.Sublist (cs.zipIdx k)
  mem_iff : ∀ x ∈ cs.zipIdx k, x ∈ picked ↔
    Calls d x.1 ∧ x.1.name ∉ taken ∧ ∀ y ∈ picked, y.2 < x.2 → y.1.name ≠ x.1.name

/-- The candidate in front is passed by. -/
theorem Picked.skip {k : Nat} {picked : List (Candidate × Nat)}
    (h : Picked d taken (k + 1) cs picked) (hc : ¬ (Calls d c ∧ c.name ∉ taken)) :
    Picked d taken k (c :: cs) picked where
  sublist := h.sublist.cons (c, k)
  mem_iff x hx := by
    rcases List.mem_cons.1 hx with rfl | hx
    · refine iff_of_false (fun hmem => ?_) fun hcalls => hc ⟨hcalls.1, hcalls.2.1⟩
      exact absurd (List.le_snd_of_mem_zipIdx (h.sublist.subset hmem)) (Nat.not_succ_le_self k)
    · exact h.mem_iff x hx

/-- The candidate in front is taken, and its name with it. -/
theorem Picked.take {k : Nat} {picked : List (Candidate × Nat)}
    (h : Picked d (c.name :: taken) (k + 1) cs picked) (hcalls : Calls d c)
    (htaken : c.name ∉ taken) : Picked d taken k (c :: cs) ((c, k) :: picked) where
  sublist := h.sublist.cons_cons (c, k)
  mem_iff x hx := by
    rcases List.mem_cons.1 hx with rfl | hx
    · refine iff_of_true List.mem_cons_self ⟨hcalls, htaken, fun y hy hlt => ?_⟩
      rcases List.mem_cons.1 hy with rfl | hy
      · exact absurd hlt (Nat.lt_irrefl k)
      · have := List.le_snd_of_mem_zipIdx (h.sublist.subset hy)
        omega
    · have hle : k + 1 ≤ x.2 := List.le_snd_of_mem_zipIdx hx
      have hne : x ≠ (c, k) := fun heq => by
        rw [heq] at hle
        exact Nat.not_succ_le_self k hle
      rw [List.mem_cons, or_iff_right hne, h.mem_iff x hx, List.mem_cons, not_or]
      constructor
      · rintro ⟨hx, ⟨hname, htaken⟩, hfirst⟩
        refine ⟨hx, htaken, fun y hy hlt => ?_⟩
        rcases List.mem_cons.1 hy with rfl | hy
        · exact Ne.symm hname
        · exact hfirst y hy hlt
      · rintro ⟨hx, htaken, hfirst⟩
        exact ⟨hx, ⟨(hfirst (c, k) List.mem_cons_self hle).symm, htaken⟩,
          fun y hy => hfirst y (List.mem_cons_of_mem _ hy)⟩

/-- **The additions are those of the picked candidates**, each with its own slot and the classes
that refer to it. -/
theorem exists_picked (d : Document) (taken : List String) (k : Nat) (cs : List Candidate) :
    ∃ picked, Picked d taken k cs picked ∧ additions d taken cs =
      picked.map fun x => (⟨x.1.name, d.referrers x.1.name⟩, x.1.slot) := by
  induction cs generalizing taken k with
  | nil => exact ⟨[], ⟨.slnil, nofun⟩, rfl⟩
  | cons c cs ih =>
    rw [additions_cons]
    split
    next h =>
      obtain ⟨picked, hpicked, heq⟩ := ih (c.name :: taken) (k + 1)
      exact ⟨(c, k) :: picked, hpicked.take h.1 h.2, by rw [heq, List.map_cons]⟩
    next h =>
      obtain ⟨picked, hpicked, heq⟩ := ih taken (k + 1)
      exact ⟨picked, hpicked.skip h, heq⟩

/-- Whether a candidate has this name and is called for. -/
def called (d : Document) (name : String) (c : Candidate) : Bool :=
  c.name == name && (demand d c).isSome

theorem called_iff {name : String} : called d name c = true ↔ c.name = name ∧ Calls d c := by
  rw [called, demand_eq, Bool.and_eq_true, beq_iff_eq]
  split <;> simp_all

namespace Picked

variable {picked : List (Candidate × Nat)}

/-- A candidate that is called for is picked, or one before it with the same name. -/
theorem exists_mem (h : Picked d taken 0 cs picked) {i : Nat} (hi : cs[i]? = some c)
    (hcalls : Calls d c) (htaken : c.name ∉ taken) :
    ∃ y ∈ picked, y.2 ≤ i ∧ y.1.name = c.name := by
  have hmem : (c, i) ∈ cs.zipIdx := List.mk_mem_zipIdx_iff_getElem?.2 hi
  by_cases hpicked : (c, i) ∈ picked
  · exact ⟨(c, i), hpicked, Nat.le_refl i, rfl⟩
  · obtain ⟨y, hy, hlt, hname⟩ : ∃ y ∈ picked, y.2 < i ∧ y.1.name = c.name := by
      by_contra hnone
      refine hpicked ((h.mem_iff _ hmem).2 ⟨hcalls, htaken, fun y hy hlt hname => ?_⟩)
      exact hnone ⟨y, hy, hlt, hname⟩
    exact ⟨y, hy, Nat.le_of_lt hlt, hname⟩

theorem nodup_names (h : Picked d taken 0 cs picked) : (picked.map fun x => x.1.name).Nodup := by
  refine List.pairwise_map.2 (((pairwise_zipIdx cs).sublist h.sublist).imp_of_mem ?_)
  intro x y hx hy hlt
  exact ((h.mem_iff y (h.sublist.subset hy)).1 hy).2.2 x hx hlt

theorem new_names (h : Picked d taken 0 cs picked) :
    ∀ name ∈ picked.map (fun x => x.1.name), name ∉ d.slots.names := by
  intro name hname
  obtain ⟨x, hx, rfl⟩ := List.mem_map.1 hname
  exact ((h.mem_iff x (h.sublist.subset hx)).1 hx).1.1

/-- What is picked is the first candidate of its name that is called for. -/
theorem find?_eq (h : Picked d taken 0 cs picked) {x : Candidate × Nat} (hx : x ∈ picked) :
    cs.find? (called d x.1.name) = some x.1 := by
  obtain ⟨hcalls, htaken, hfirst⟩ := (h.mem_iff x (h.sublist.subset hx)).1 hx
  obtain ⟨hlt, hget⟩ :=
    List.getElem?_eq_some_iff.1 (List.mem_zipIdx_iff_getElem?.1 (h.sublist.subset hx))
  refine List.find?_eq_some_iff_getElem.2
    ⟨called_iff.2 ⟨rfl, hcalls⟩, x.2, hlt, hget, fun j hj => ?_⟩
  rw [Bool.not_eq_true', Bool.eq_false_iff]
  intro hcalled
  obtain ⟨hname, hcalls'⟩ := called_iff.1 hcalled
  obtain ⟨y, hy, hle, hyname⟩ :=
    h.exists_mem (List.getElem?_eq_getElem (Nat.lt_trans hj hlt)) hcalls' (hname ▸ htaken)
  exact hfirst y hy (Nat.lt_of_le_of_lt hle hj) (hyname.trans hname)

end Picked

theorem mem_additions_of_demand (hdemand : demand d c = some classes) (hc : c ∈ cs)
    (htaken : c.name ∉ taken) : c.name ∈ (additions d taken cs).map (·.1.slot) := by
  obtain ⟨picked, hpicked, heq⟩ := exists_picked d taken 0 cs
  obtain ⟨i, hi⟩ := List.mem_iff_getElem?.1 hc
  have hcalls : Calls d c := by
    by_contra hnot
    rw [demand_eq, if_neg hnot] at hdemand
    cases hdemand
  obtain ⟨y, hy, -, hname⟩ := hpicked.exists_mem hi hcalls htaken
  rw [heq, List.map_map]
  exact List.mem_map.2 ⟨y, hy, hname⟩

/-! ## Documents that are repaired -/

/-- The body that is written for a candidate is read as the slot that was meant. -/
theorem ofValue_toValue_of_candidate (hc : c ∈ p.candidates) :
    SlotDef.ofValue c.slot.toValue = c.slot := by
  rcases List.mem_cons.1 hc with rfl | hcatalog
  · rfl
  · obtain ⟨s, -, rfl⟩ := List.mem_map.1 hcatalog
    rfl

/-- The candidates whose slots a repair adds, in the order of its log: of each name the first that
is called for. -/
structure Chosen (p : RepairPolicy) (d : Document) (chosen : List Candidate) : Prop where
  sublist : chosen.Sublist p.candidates
  log : (p.repairDocument d).2.map (·.slot) = chosen.map (·.name)
  first : ∀ c ∈ chosen, p.candidates.find? (called d c.name) = some c

/-- **A repair declares the slots of the picked candidates**, and logs them. -/
theorem repairDocument_picked (p : RepairPolicy) (d : Document) :
    ∃ picked, Picked d [] 0 p.candidates picked ∧
      (p.repairDocument d).1 = d.addSlots (picked.map fun x => entry x.1) ∧
      (p.repairDocument d).2 = picked.map fun x => ⟨x.1.name, d.referrers x.1.name⟩ := by
  obtain ⟨picked, hpicked, heq⟩ := exists_picked d [] 0 p.candidates
  refine ⟨picked, hpicked, ?_, ?_⟩
  · rw [repairDocument, heq, List.foldl_map, Document.addSlots, List.foldl_map]
    rfl
  · rw [repairDocument, heq, List.map_map]
    rfl

/-- **A repair declares the slots of the chosen candidates**, under different names that are
new. -/
theorem repairDocument_spec (p : RepairPolicy) (d : Document) :
    ∃ chosen : List Candidate, p.Chosen d chosen ∧
      (p.repairDocument d).1 = d.addSlots (chosen.map entry) ∧
      (Table.names (chosen.map entry)).Nodup ∧
      ∀ name ∈ Table.names (chosen.map entry), name ∉ d.slots.names := by
  obtain ⟨picked, hpicked, hdoc, hlog⟩ := p.repairDocument_picked d
  have hsub : (picked.map (·.1)).Sublist p.candidates := by
    have hsub := hpicked.sublist.map Prod.fst
    rwa [List.zipIdx_map_fst] at hsub
  simp only [names_map_entry]
  refine ⟨picked.map (·.1), ⟨hsub, ?_, fun c hc => ?_⟩, ?_, ?_, ?_⟩
  · rw [hlog, List.map_map, List.map_map]
    rfl
  · obtain ⟨x, hx, rfl⟩ := List.mem_map.1 hc
    exact hpicked.find?_eq hx
  · rw [hdoc, List.map_map]
    rfl
  · rw [List.map_map]
    exact hpicked.nodup_names
  · rw [List.map_map]
    exact hpicked.new_names

theorem declared_of_demand (hdemand : demand d c = some classes) (hc : c ∈ p.candidates) :
    c.name ∈ (p.repairDocument d).2.map (·.slot) := by
  rw [repairDocument, List.map_map]
  exact mem_additions_of_demand hdemand hc List.not_mem_nil

end SchemaTidy.RepairPolicy
