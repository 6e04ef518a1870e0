import Mathlib.Data.List.Induction
import SchemaTidy.Proofs.Yaml.Entries

/-! # Entries with repeated keys

When entries are set one after the other, a key stays where it came up first (`map_fst_merge`) and
has the value that it was given last (`codeValue?_merge`). -/

namespace SchemaTidy.Decimal.Binary

/-- The number with one zero for both. -/
def unsigned : Binary → Binary
  | .finite _ 0 _ => .zero false
  | x => x

theorem sameNumber_iff (x y : Binary) : x.sameNumber y = true ↔ x.unsigned = y.unsigned := by
  rcases x with _ | _ | ⟨_, _ | _, _⟩ <;> rcases y with _ | _ | ⟨_, _ | _, _⟩ <;>
    simp [sameNumber, unsigned, zero]

end SchemaTidy.Decimal.Binary

namespace SchemaTidy.Yaml

/-! ## Scalars as keys -/

def Number.unsigned : Number → Number
  | .whole n => .whole n
  | .real x => .real x.unsigned

theorem Number.same_iff (m n : Number) : m.same n = true ↔ m.unsigned = n.unsigned := by
  cases m <;> cases n <;> simp [same, unsigned, Decimal.Binary.sameNumber_iff]

namespace Value

/-- What scalars have in common that are one key. Other values have no code. -/
def code? : Value → Option Value
  | .null => some .null
  | .bool b => some (.bool b)
  | .number n => some (.number n.unsigned)
  | .string s => some (.string s)
  | _ => none

variable {v w code : Value}

theorem same_iff (h : v.code? = some code ∨ w.code? = some code) :
    v.same w = true ↔ v.code? = w.code? := by
  cases v <;> cases w <;> simp_all [code?, same, Number.same_iff]

theorem same_iff_of_left (h : v.code? = some code) : v.same w = true ↔ w.code? = some code := by
  rw [same_iff (.inl h), h, eq_comm]

theorem same_iff_of_right (h : w.code? = some code) : v.same w = true ↔ v.code? = some code := by
  rw [same_iff (.inr h), h]

end Value

namespace Entries

variable {es : Entries} {e : Value × Value} {key value code : Value}

/-! ## Entries set one after the other -/

/-- Some entries, set one after the other. -/
def merge (es : Entries) : Entries :=
  es.foldl (fun (entries : Entries) (key, value) => entries.insert key value) []

theorem Distinct.merge_eq (h : es.Distinct) : es.merge = es := foldl_insert h

theorem merge_concat (es : Entries) (e : Value × Value) :
    merge (es ++ [e]) = (merge es).insert e.1 e.2 := by
  rw [merge, List.foldl_append]
  rfl

theorem distinct_merge (es : Entries) : (merge es).Distinct := by
  induction es using List.reverseRecOn with
  | nil => exact List.Pairwise.nil
  | append_singleton es e ih =>
    rw [merge_concat]
    exact ih.insert e.1 e.2

/-! ## Where keys stand -/

/-- The keys of some entries, each where it comes up first. -/
def keys (es : Entries) : List Value :=
  es.foldl (fun keys e => if keys.any (·.same e.1) then keys else keys ++ [e.1]) []

theorem keys_concat (es : Entries) (e : Value × Value) :
    keys (es ++ [e]) = if (keys es).any (·.same e.1) then keys es else keys es ++ [e.1] :=
  List.foldl_append

theorem map_fst_insert (es : Entries) (key value : Value) :
    (es.insert key value).map (·.1) =
      if (es.map (·.1)).any (·.same key) then es.map (·.1) else es.map (·.1) ++ [key] := by
  induction es with
  | nil => rfl
  | cons e rest ih =>
    rw [insert, List.map_cons, List.any_cons]
    cases hsame : e.1.same key
    · rw [if_neg (by simp), List.map_cons, ih, Bool.false_or]
      split <;> rfl
    · rfl

theorem map_fst_merge (es : Entries) : (merge es).map (·.1) = keys es := by
  induction es using List.reverseRecOn with
  | nil => rfl
  | append_singleton es e ih => rw [merge_concat, map_fst_insert, ih, keys_concat]

theorem keys_pairwise (es : Entries) : (keys es).Pairwise fun k l => k.same l = false := by
  rw [← map_fst_merge]
  exact List.pairwise_map.2 (distinct_merge es)

theorem keys_sublist (es : Entries) : (keys es).Sublist (es.map (·.1)) := by
  induction es using List.reverseRecOn with
  | nil => exact List.Sublist.slnil
  | append_singleton es e ih =>
    rw [keys_concat, List.map_append]
    split
    · exact ih.trans (List.sublist_append_left _ _)
    · exact ih.append_right _

/-- Keys that can be told from the others can be left out before or after repeats are. -/
theorem keys_filter {keep : Value → Bool}
    (h : ∀ e ∈ es, ∀ e' ∈ es, e.1.same e'.1 = true → keep e.1 = keep e'.1) :
    keys (es.filter fun e => keep e.1) = (keys es).filter keep := by
  induction es using List.reverseRecOn with
  | nil => rfl
  | append_singleton es e ih =>
    have hrest := ih fun e he e' he' =>
      h e (List.mem_append_left _ he) e' (List.mem_append_left _ he')
    have hlast {k : Value} (hk : k ∈ keys es) (hsame : k.same e.1 = true) : keep k = keep e.1 := by
      obtain ⟨e', he', rfl⟩ := List.mem_map.1 ((keys_sublist es).subset hk)
      exact h e' (List.mem_append_left _ he') e List.mem_concat_self hsame
    rw [List.filter_append, keys_concat]
    cases hkeep : keep e.1
    · have hnone : [e].filter (fun e => keep e.1) = [] := by simp [hkeep]
      rw [hnone, List.append_nil, hrest]
      split
      · rfl
      · simp [hkeep]
    · have hany : ((keys es).filter keep).any (·.same e.1) = (keys es).any (·.same e.1) := by
        rw [List.any_filter, Bool.eq_iff_iff, List.any_eq_true, List.any_eq_true]
        refine exists_congr fun k => and_congr_right fun hk => ?_
        rw [Bool.and_eq_true, and_iff_right_iff_imp]
        exact fun hsame => (hlast hk hsame).trans hkeep
      have hone : [e].filter (fun e => keep e.1) = [e] := by simp [hkeep]
      rw [hone, keys_concat, hrest, hany]
      split
      · rfl
      · simp [hkeep]

/-- Where no other key stands between two entries of a key, the key that comes up last is that of
the last entry. -/
theorem keys_concat_of_between (hself : e.1.same e.1 = true)
    (h : ∀ k l m, [k, l, m].Sublist ((es ++ [e]).map (·.1)) → k.same m = true → k.same l = true) :
    ∃ front k, keys (es ++ [e]) = front ++ [k] ∧ k.same e.1 = true := by
  rw [keys_concat]
  split
  next hany =>
    obtain ⟨k, hk, hsame⟩ := List.any_eq_true.1 hany
    obtain ⟨front, l, hkeys⟩ := (List.eq_nil_or_concat (keys es)).resolve_left
      (List.ne_nil_of_mem hk)
    rw [List.concat_eq_append] at hkeys
    refine ⟨front, l, hkeys, ?_⟩
    rcases List.mem_append.1 (hkeys ▸ hk) with hfront | hlast
    · have hbefore : [k, l].Sublist (es.map (·.1)) :=
        ((List.singleton_sublist.2 hfront).append_right [l]).trans (hkeys ▸ keys_sublist es)
      have hother : k.same l = false :=
        (List.pairwise_append.1 (hkeys ▸ keys_pairwise es)).2.2 k hfront l (List.mem_singleton_self l)
      rw [List.map_append] at h
      rw [h k l e.1 (hbefore.append_right [e.1]) hsame] at hother
      cases hother
    · exact List.mem_singleton.1 hlast ▸ hsame
  · exact ⟨keys es, e.1, rfl, hself⟩

/-! ## The values of keys -/

/-- The value under the scalars that have a code. -/
def codeValue? (es : Entries) (code : Value) : Option Value :=
  (es.find? fun e => e.1.code? == some code).map (·.2)

theorem codeValue?_cons (e : Value × Value) (rest : Entries) (code : Value) :
    codeValue? (e :: rest) code =
      if e.1.code? = some code then some e.2 else codeValue? rest code := by
  rw [codeValue?, List.find?_cons]
  by_cases h : e.1.code? = some code
  · rw [if_pos h, beq_iff_eq.2 h]
    rfl
  · rw [if_neg h, beq_eq_false_iff_ne.2 h]
    rfl

theorem codeValue?_insert (es : Entries) (key value code : Value) :
    (es.insert key value).codeValue? code =
      if key.code? = some code then some value else es.codeValue? code := by
  induction es with
  | nil => exact codeValue?_cons (key, value) [] code
  | cons e rest ih =>
    rw [insert, codeValue?_cons]
    by_cases he : e.1.code? = some code
    · by_cases hkey : key.code? = some code
      · rw [if_pos ((Value.same_iff_of_left he).2 hkey), codeValue?_cons, if_pos he, if_pos hkey]
      · have hother : ¬ e.1.same key = true := mt (Value.same_iff_of_left he).1 hkey
        rw [if_neg hother, codeValue?_cons, if_pos he, if_neg hkey, if_pos he]
    · rw [if_neg he]
      split
      next hsame =>
        have hkey : ¬ key.code? = some code := fun hkey =>
          he ((Value.same_iff_of_right hkey).1 hsame)
        rw [codeValue?_cons, if_neg he, if_neg hkey]
      · rw [codeValue?_cons, if_neg he, ih]

/-- **A key has the value that it was given last.** -/
theorem codeValue?_merge (es : Entries) (code : Value) :
    (merge es).codeValue? code =
      ((es.filter fun e => e.1.code? == some code).getLast?).map (·.2) := by
  induction es using List.reverseRecOn with
  | nil => rfl
  | append_singleton es e ih =>
    rw [merge_concat, codeValue?_insert, ih, List.filter_append]
    by_cases h : e.1.code? = some code <;> simp [h]

/-- The value of a string key that is given last. -/
def lastValue? (es : Entries) (name : String) : Option Value :=
  ((es.filter fun e => e.1.isString name).getLast?).map (·.2)

theorem get?_merge (es : Entries) (name : String) : (merge es).get? name = es.lastValue? name := by
  have hcode : (fun e : Value × Value => e.1.code? == some (.string name)) =
      fun e => e.1.isString name := by
    funext e
    have hkey : e.1.same (.string name) = true ↔ e.1.code? = some (.string name) :=
      Value.same_iff_of_right rfl
    rw [Bool.eq_iff_iff, beq_iff_eq, ← hkey, Value.same_string]
  have hvalue := codeValue?_merge es (.string name)
  rwa [codeValue?, hcode] at hvalue

theorem Distinct.codeValue?_of_mem (h : es.Distinct) (he : e ∈ es) (hcode : e.1.code? = some code) :
    es.codeValue? code = some e.2 := by
  induction es with
  | nil => cases he
  | cons first rest ih =>
    obtain ⟨hfirst, hrest⟩ := List.pairwise_cons.1 h
    rw [codeValue?_cons]
    rcases List.mem_cons.1 he with rfl | hmem
    · rw [if_pos hcode]
    · have hne : ¬ first.1.code? = some code := fun hc => by
        have hsame := (Value.same_iff_of_right hcode).2 hc
        rw [hfirst e hmem] at hsame
        cases hsame
      rw [if_neg hne, ih hrest hmem]

end Entries

end SchemaTidy.Yaml
