import SchemaTidy.Proofs.Settings.Load
import SchemaTidy.Proofs.Settings.ReadBack
import SchemaTidy.Proofs.Settings.TextSetting

/-! # Variables for texts

Main statement: `load_textVariable`. A variable that names a setting of texts gives it what its
own text is read back as, whatever the files and the other variables say.

An environment is a list, and a later variable wins over an earlier one. Surroundings that list
their variables in no certain order are covered by all lists of them: where all other variables are
apart from the setting, the statement holds of each. -/

namespace SchemaTidy.Settings
open Toml (Value Table)

variable {files : Files} {environment environment' before after : Environment}
variable {path : Option String} {name value other key : String} {v : Value} {ls : List Table}

/-- The variable that is documented for a setting. -/
def TextSetting.variableName : TextSetting → String
  | .enumSuffix => "SCHEMA_DOCTOR__VALIDATION__ENUM_SUFFIX"
  | .identifierName => "SCHEMA_DOCTOR__REPAIR__IDENTIFIER__NAME"
  | .identifierRange => "SCHEMA_DOCTOR__REPAIR__IDENTIFIER__RANGE"
  | .identifierDescription => "SCHEMA_DOCTOR__REPAIR__IDENTIFIER__DESCRIPTION"

/-- The path of the setting that a variable names. -/
def variablePath? (name : String) : Option (List String) := (variableKey? name).map pathOf

theorem variablePath?_variableName (s : TextSetting) :
    variablePath? s.variableName = some s.path := by
  cases s <;> decide +kernel

/-! ## Layers -/

theorem userFile?_of_variable (h : (variableKey? name).isSome) :
    userFile? (before ++ (name, value) :: after) = userFile? (before ++ after) := by
  have hother {place : String} (hplace : variableKey? place = none) : (place == name) = false := by
    refine beq_eq_false_iff_ne.2 fun heq => ?_
    rw [← heq, hplace] at h
    cases h
  have hfolder : ("XDG_CONFIG_HOME" == name) = false := hother (by decide +kernel)
  have hhome : ("HOME" == name) = false := hother (by decide +kernel)
  simp only [userFile?, userFolder?, List.lookup_append, List.lookup_cons, hfolder, hhome]

/-- Of the environment the layers of the files depend on the user's file alone. -/
theorem layers_of_userFile? (huser : userFile? environment = userFile? environment')
    (h : layers files environment path = .ok ls) :
    ∃ lower, ls = lower ++ [environment.layer] ∧
      layers files environment' path = .ok (lower ++ [environment'.layer]) := by
  have hlayer : userLayer files environment' = userLayer files environment := by
    rw [userLayer, userLayer, huser]
  rw [layers] at h ⊢
  rw [hlayer]
  cases hworking : workingFiles.mapM (optionalLayer files) with
  | error fault => rw [hworking] at h; cases h
  | ok working =>
    cases huser : userLayer files environment with
    | error fault => rw [hworking, huser] at h; cases h
    | ok user =>
      cases hasked : path.toList.mapM (requiredLayer files) with
      | error fault => rw [hworking, huser, hasked] at h; cases h
      | ok asked =>
        rw [hworking, huser, hasked] at h
        cases h
        exact ⟨working ++ [user] ++ asked, rfl, rfl⟩

theorem layer_append : (before ++ after).layer = before.layer ++ after.layer :=
  List.filterMap_append ..

theorem layer_cons (h : variableKey? name = some key) :
    Environment.layer ((name, value) :: after) = (key, variableValue value) :: after.layer :=
  List.filterMap_cons_some (by simp only [h, Option.map_some])

theorem apart_of_mem_layer {p : List String} {e : String × Value}
    (h : ∀ v ∈ after, ∀ q ∈ variablePath? v.1, Apart p q) (he : e ∈ after.layer) :
    Apart p (pathOf e.1) := by
  obtain ⟨v, hv, heq⟩ := List.mem_filterMap.1 he
  obtain ⟨key, hkey, rfl⟩ := Option.map_eq_some_iff.1 heq
  exact h v hv _ (by rw [variablePath?, hkey]; rfl)

theorem exists_load_eq_ok {p : Policy} (h : load files environment path = .ok p) :
    ∃ ls, layers files environment path = .ok ls ∧ policy? (ofLayers ls) = some p := by
  rw [load] at h
  cases hlayers : layers files environment path with
  | error fault => rw [hlayers] at h; cases h
  | ok ls =>
    simp only [hlayers, bind, Except.bind] at h
    split at h
    next hpolicy => exact ⟨ls, rfl, hpolicy.trans (congrArg some (Except.ok.inj h))⟩
    next => cases h

theorem load_eq_ok {p : Policy} (hlayers : layers files environment path = .ok ls)
    (h : policy? (ofLayers ls) = some p) : load files environment path = .ok p := by
  simp only [load, hlayers, bind, Except.bind, h]

/-- Of the environment only its layer counts, and where the user's file is. -/
theorem exists_load_of_setAt {s : TextSetting} {p : Policy} {text : String}
    (huser : userFile? environment = userFile? environment')
    (hset : ∀ lower, SetAt v s.path (some (layered lower environment.layer))
      (layered lower environment'.layer))
    (htext : text? v = some text) (h : load files environment path = .ok p) :
    ∃ loaded, load files environment' path = .ok loaded ∧ s.of loaded = text := by
  obtain ⟨ls, hlayers, hpolicy⟩ := exists_load_eq_ok h
  obtain ⟨lower, rfl, hlayers'⟩ := layers_of_userFile? huser hlayers
  rw [ofLayers_concat] at hpolicy
  obtain ⟨loaded, hloaded, hs⟩ := policy?_of_setAt (hset (ofLayers lower))
    (fun w hw => ⟨p, by cases hw; exact hpolicy⟩) htext
  exact ⟨loaded, load_eq_ok hlayers' (by rw [ofLayers_concat]; exact hloaded), hs⟩

/-! ## The variable of a setting -/

section Layer

variable {p : List String} (hname : variablePath? name = some p)
  (hothers : ∀ v ∈ after, ∀ q ∈ variablePath? v.1, Apart p q)

include hname hothers

/-- A variable sets its path. -/
theorem setAt_layer (lower : Value) :
    SetAt (variableValue value) p (some (layered lower (before ++ after).layer))
      (layered lower (before ++ (name, value) :: after).layer) := by
  obtain ⟨key, hkey, rfl⟩ := Option.map_eq_some_iff.1 hname
  simp only [layer_append, layer_cons hkey, layered_append]
  exact .layered (fun e he => apart_of_mem_layer hothers he)
    (setAt_overlay (table?_variableValue value) _ _)

/-- It makes no difference that the variable was there with another text. -/
theorem setAt_layer_cons (lower : Value) :
    SetAt (variableValue value) p (some (layered lower (before ++ (name, other) :: after).layer))
      (layered lower (before ++ (name, value) :: after).layer) := by
  obtain ⟨key, hkey, rfl⟩ := Option.map_eq_some_iff.1 hname
  simp only [layer_append, layer_cons hkey, layered_append]
  exact .layered (fun e he => apart_of_mem_layer hothers he)
    (setAt_overlay_overlay (table?_variableValue value) _ _)

end Layer

/-- **A variable gives its setting what its text is read back as**, whatever the files and the other
variables say, as long as no later one names the setting, one that holds it or one that it holds.
Nothing is lost by that: what can be loaded without the variable, or with any text for it, can be
loaded with the text. -/
theorem load_textVariable {s : TextSetting} {p : Policy} (value : String)
    (hname : variablePath? name = some s.path)
    (hothers : ∀ v ∈ after, ∀ q ∈ variablePath? v.1, Apart s.path q)
    (hload : load files (before ++ after) path = .ok p ∨
      ∃ other, load files (before ++ (name, other) :: after) path = .ok p) :
    ∃ loaded, load files (before ++ (name, value) :: after) path = .ok loaded ∧
      ReadBack value (s.of loaded) ∧ (s.of loaded = value ↔ Verbatim value.toList) := by
  obtain ⟨text, htext, hback⟩ := readBack_variableValue value
  have huser (text : String) :
      userFile? (before ++ (name, text) :: after) = userFile? (before ++ after) := by
    obtain ⟨key, hkey, -⟩ := Option.map_eq_some_iff.1 hname
    exact userFile?_of_variable (by rw [hkey]; rfl)
  obtain ⟨loaded, hloaded, rfl⟩ :
      ∃ loaded, load files (before ++ (name, value) :: after) path = .ok loaded ∧
        s.of loaded = text := by
    rcases hload with hwithout | ⟨other, hother⟩
    · exact exists_load_of_setAt (huser value).symm
        (setAt_layer hname hothers) htext hwithout
    · exact exists_load_of_setAt ((huser other).trans (huser value).symm)
        (setAt_layer_cons hname hothers) htext hother
  exact ⟨loaded, hloaded, hback, hback.eq_iff⟩

/-- A name that only starts like a truth value is kept, over a file and beside other variables. -/
theorem load_textVariable_word :
    let files : Files := fun path =>
      if path = "schema-doctor.toml" then some "[repair.identifier]\nname = \"key\"\n" else none
    let before := [("HOME", "home"), ("SCHEMA_DOCTOR__REPAIR__IDENTIFIER__MIN_REFERENCES", "3")]
    let after := [("schema_doctor__Repair__identifier__Range", "007")]
    ∃ loaded, load files (before ++ ("SCHEMA_DOCTOR__REPAIR__IDENTIFIER__NAME", "True_id") :: after)
      none = .ok loaded ∧ TextSetting.identifierName.of loaded = "True_id" := by
  intro files before after
  let below : Policy := { Policy.standard with repair := { Policy.standard.repair with
    identifier := ⟨⟨"key", "7", "Unique identifier"⟩, 3⟩ } }
  have hbelow : load files (before ++ after) none = .ok below := by decide +kernel
  have hothers : ∀ v ∈ after, ∀ q ∈ variablePath? v.1, Apart TextSetting.identifierName.path q := by
    have hrange : variablePath? "schema_doctor__Repair__identifier__Range" =
        some ["repair", "identifier", "range"] := by decide +kernel
    simp only [after, List.forall_mem_singleton, hrange, Option.mem_some, forall_eq']
    exact ⟨by decide, by decide⟩
  have hstarts : StartsWord "True_id".toList := fun c hc => by
    cases hc
    exact ⟨rfl, rfl⟩
  have hkept : Verbatim "True_id".toList :=
    verbatim_of_word hstarts (by decide +kernel) (by decide +kernel)
  obtain ⟨loaded, hloaded, -, hsame⟩ := load_textVariable "True_id"
    (variablePath?_variableName .identifierName) hothers (.inl hbelow)
  exact ⟨loaded, hloaded, hsame.2 hkept⟩

/-- A name of digits loses the zeros in front of them, without an error. -/
theorem load_leadingZeros :
    load (fun _ => none) [(TextSetting.identifierName.variableName, "007")] none =
        .ok { Policy.standard with repair := { Policy.standard.repair with
          identifier := ⟨⟨"7", "string", "Unique identifier"⟩, 1⟩ } } ∧
      ¬ ∀ (s : TextSetting) (value : String), ∃ loaded,
        load (fun _ => none) [(s.variableName, value)] none = .ok loaded ∧ s.of loaded = value := by
  have hload : load (fun _ => none) [(TextSetting.identifierName.variableName, "007")] none =
      .ok { Policy.standard with repair := { Policy.standard.repair with
        identifier := ⟨⟨"7", "string", "Unique identifier"⟩, 1⟩ } } := by decide +kernel
  refine ⟨hload, fun h => ?_⟩
  obtain ⟨loaded, hloaded, hname⟩ := h .identifierName "007"
  rw [hload] at hloaded
  cases hloaded
  revert hname
  decide

end SchemaTidy.Settings
