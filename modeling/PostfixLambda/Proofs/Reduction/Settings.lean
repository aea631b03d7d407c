import PostfixLambda.Proofs.Reduction.CaptureOnly

/-! What the settings of a reducer come to. Grouping does not matter: settings count one by one, from left to right
    (`Settings.configuration_eq`). A renamer of other symbols is ignored where the reducer is made, but it takes the one place
    that there is for a renamer: so it leaves a reducer as it was exactly if a later setting takes that place, or there
    was no renamer in it to lose. -/

namespace PostfixLambda

variable {S : Type}

namespace Settings

/-! ### Settings one by one -/

mutual

/-- The single settings among the grouped ones, from left to right. -/
def leaves : Settings S → List (Setting S)
  | .none => []
  | .one setting => [setting]
  | .group members => leavesOf members

def leavesOf : List (Settings S) → List (Setting S)
  | [] => []
  | first :: rest => first.leaves ++ leavesOf rest

end

end Settings

/-! ### Bundles -/

namespace Bundle

mutual

/-- The single settings of a bundle, from left to right. -/
def leaves : Bundle S → List (Setting S)
  | .one setting => [setting]
  | .several parts => leavesOf parts

def leavesOf : List (Bundle S) → List (Setting S)
  | [] => []
  | first :: rest => first.leaves ++ leavesOf rest

end

mutual

theorem apply_eq (config : Configuration S) :
    (bundle : Bundle S) → bundle.apply config = bundle.leaves.foldl Configuration.set config
  | .one _ => rfl
  | .several parts => applyAll_eq config parts

theorem applyAll_eq (config : Configuration S) :
    (parts : List (Bundle S)) → applyAll config parts = (leavesOf parts).foldl Configuration.set config
  | [] => rfl
  | first :: rest => by
    rw [applyAll, apply_eq config first, applyAll_eq _ rest, leavesOf, List.foldl_append]

end

theorem leavesOf_append (parts more : List (Bundle S)) : leavesOf (parts ++ more) = leavesOf parts ++ leavesOf more := by
  induction parts with
  | nil => rfl
  | cons first rest ih => rw [List.cons_append, leavesOf, leavesOf, ih, List.append_assoc]

/-- The single settings of what is given, of which nothing may be missing. -/
def givenLeaves : Option (Bundle S) → List (Setting S)
  | none => []
  | some bundle => bundle.leaves

/-- Taking what is given apart keeps the settings and their order. -/
theorem leavesOf_partsOf (given : List (Option (Bundle S))) : leavesOf (partsOf given) = given.flatMap givenLeaves := by
  fun_induction partsOf given with
  | case1 => rfl
  | case2 rest ih => rw [ih]; rfl
  | case3 parts rest ih => rw [leavesOf_append, ih]; rfl
  | case4 setting rest ih => rw [leavesOf, ih]; rfl

theorem leaves_ofList (given : List (Option (Bundle S))) : (ofList given).leaves = given.flatMap givenLeaves := by
  rw [← leavesOf_partsOf]
  unfold ofList
  split
  · rename_i part hpart
    rw [hpart, leavesOf, leavesOf, List.append_nil]
  · rfl

end Bundle

namespace Settings

mutual

/-- The bundle that settings come to has their single settings, in order. -/
theorem leaves_bundle? : (settings : Settings S) → Bundle.givenLeaves settings.bundle? = settings.leaves
  | .none => rfl
  | .one _ => rfl
  | .group members => by
    rw [bundle?, Bundle.givenLeaves, Bundle.leaves_ofList, leaves_bundles members, leaves]

theorem leaves_bundles : (members : List (Settings S)) → (bundles members).flatMap Bundle.givenLeaves = leavesOf members
  | [] => rfl
  | first :: rest => by
    rw [bundles, List.flatMap_cons, leaves_bundle? first, leaves_bundles rest, leavesOf]

end

/-- Settings come to the configuration that their single settings make, one after the other. -/
theorem configuration_eq (settings : List (Settings S)) :
    configuration settings = (leavesOf settings).foldl Configuration.set {} := by
  rw [configuration, Bundle.apply_eq, Bundle.leaves_ofList, leaves_bundles]

theorem leavesOf_append (settings more : List (Settings S)) :
    leavesOf (settings ++ more) = leavesOf settings ++ leavesOf more := by
  induction settings with
  | nil => rfl
  | cons first rest ih => rw [List.cons_append, leavesOf, leavesOf, ih, List.append_assoc]

/-! ### One setting more -/

/-- The settings `settings'` are `settings` with a new one put in at some place: in front of any member or behind the
    last, among the settings themselves or inside a group at any depth. -/
inductive Inserted (new : Setting S) : (settings settings' : List (Settings S)) → Prop where
  | here (rest : List (Settings S)) : Inserted new rest (.one new :: rest)
  | later (first : Settings S) {rest rest' : List (Settings S)} (h : Inserted new rest rest') :
      Inserted new (first :: rest) (first :: rest')
  | within {members members' : List (Settings S)} (h : Inserted new members members') (rest : List (Settings S)) :
      Inserted new (.group members :: rest) (.group members' :: rest)

/-- One by one, the new setting stands between those before its place and those after it. -/
theorem Inserted.leaves {new : Setting S} {settings settings' : List (Settings S)} (h : Inserted new settings settings') :
    ∃ before after, leavesOf settings = before ++ after ∧ leavesOf settings' = before ++ new :: after := by
  induction h with
  | here rest => exact ⟨[], leavesOf rest, rfl, rfl⟩
  | later first _ ih =>
    obtain ⟨before, after, h, h'⟩ := ih
    refine ⟨first.leaves ++ before, after, ?_, ?_⟩
    · rw [leavesOf, h, List.append_assoc]
    · rw [leavesOf, h', List.append_assoc]
  | within _ rest ih =>
    obtain ⟨before, after, h, h'⟩ := ih
    refine ⟨before, after ++ leavesOf rest, ?_, ?_⟩
    · rw [leavesOf, Settings.leaves, h, List.append_assoc]
    · rw [leavesOf, Settings.leaves, h', List.append_assoc, List.cons_append]

end Settings

/-! ### The place of the renamer -/

/-- The setting takes the place of the renamer. -/
def Setting.isRenamer : Setting S → Bool
  | .renamer _ | .foreignRenamer _ => true
  | .log _ | .maxSteps _ | .delta _ => false

/-- One more setting on a configuration with another renamer: all else is the same, and so is the renamer if the setting
    takes its place. -/
theorem Configuration.set_renamer (config : Configuration S) (choice : RenamerChoice S) (setting : Setting S) :
    { config with renamer := choice }.set setting =
      { config.set setting with renamer := if setting.isRenamer then (config.set setting).renamer else choice } := by
  cases setting <;> rfl

/-- Whatever the renamer was before some settings, all else comes to the same, and so does the renamer if one of them
    takes its place. -/
theorem Configuration.foldl_set_renamer (settings : List (Setting S)) (config : Configuration S)
    (choice : RenamerChoice S) :
    settings.foldl Configuration.set { config with renamer := choice } =
      { settings.foldl Configuration.set config with
        renamer := if settings.any Setting.isRenamer then (settings.foldl Configuration.set config).renamer else choice } := by
  induction settings generalizing config choice with
  | nil => rfl
  | cons first rest ih =>
    rw [List.foldl_cons, List.foldl_cons, set_renamer, ih, List.any_cons]
    cases hfirst : first.isRenamer with
    | false => rfl
    | true =>
      -- The first setting takes the place, so from there on both configurations are one.
      have hsame := ih (config.set first) (config.set first).renamer
      simp only [Bool.true_or, if_true] at hsame ⊢
      rw [← hsame]

namespace Reducer

theorem ofSettings_eq (settings : List (Settings S)) :
    (ofSettings settings).1 = ofConfiguration ((Settings.leavesOf settings).foldl Configuration.set {}) := by
  rw [ofSettings, Settings.configuration_eq]

/-- A renamer of other symbols takes the renamer away, unless a later setting takes its place; it changes nothing else. -/
theorem ofSettings_foreignRenamer {symbolType : Bytes} {settings settings' : List (Settings S)}
    {before after : List (Setting S)} (h : Settings.leavesOf settings = before ++ after)
    (h' : Settings.leavesOf settings' = before ++ .foreignRenamer symbolType :: after) :
    (ofSettings settings').1 = (ofSettings settings).1.renamingBy
      (if after.any Setting.isRenamer then (ofSettings settings).1.strategy.rename? else none) := by
  rw [ofSettings_eq, ofSettings_eq, h, h', List.foldl_append, List.foldl_append, List.foldl_cons]
  generalize before.foldl Configuration.set {} = config
  have hset : config.set (.foreignRenamer symbolType) = { config with renamer := .foreign symbolType } := rfl
  rw [hset, Configuration.foldl_set_renamer]
  cases after.any Setting.isRenamer <;> rfl

theorem renamingBy_eq_self_iff {red : Reducer S} {rename? : Option (Renamer S)} :
    red.renamingBy rename? = red ↔ rename? = red.strategy.rename? := by
  constructor
  · intro h
    rw [← h]
    rfl
  · rintro rfl
    rfl

/-- A renamer of other symbols, put in anywhere among the settings, leaves the step limit, the delta rule and the log
    level as they were. It leaves the renamer too if a setting after it takes the renamer's place; if none does, there
    is no renamer any more. So the reducer is the same exactly if one does, or if it had no renamer before. -/
theorem foreign_renamer_ignored_iff (symbolType : Bytes) (settings settings' : List (Settings S))
    (h : Settings.Inserted (.foreignRenamer symbolType) settings settings') :
    (ofSettings settings').1.maxSteps = (ofSettings settings).1.maxSteps ∧
    (ofSettings settings').1.strategy.delta = (ofSettings settings).1.strategy.delta ∧
    (ofSettings settings').1.logLevel? = (ofSettings settings).1.logLevel? ∧
    ∃ before after, Settings.leavesOf settings = before ++ after ∧
      Settings.leavesOf settings' = before ++ .foreignRenamer symbolType :: after ∧
      (ofSettings settings').1.strategy.rename? =
        (if after.any Setting.isRenamer then (ofSettings settings).1.strategy.rename? else none) ∧
      ((ofSettings settings').1 = (ofSettings settings).1 ↔
        (∃ setting ∈ after, setting.isRenamer = true) ∨ (ofSettings settings).1.strategy.rename? = none) := by
  obtain ⟨before, after, hleaves, hleaves'⟩ := h.leaves
  have hred := ofSettings_foreignRenamer hleaves hleaves'
  rw [hred]
  refine ⟨rfl, rfl, rfl, before, after, hleaves, hleaves', rfl, ?_⟩
  rw [renamingBy_eq_self_iff, ← List.any_eq_true]
  cases after.any Setting.isRenamer with
  | true => simp
  | false => simp [eq_comm]

/-- Inside a group in front of the reducer's own renamer, a renamer of other symbols is ignored. -/
theorem foreign_renamer_ignored_before_own :
    (ofSettings [.group [.one (.foreignRenamer "int"), .one (.delta true)], .none,
      .one (.renamer (some Renamer.primes))]).1 =
    (ofSettings [.group [.one (.delta true)], .none, .one (.renamer (some Renamer.primes))]).1 := by
  obtain ⟨-, -, -, before, after, h, h', -, hsame⟩ := foreign_renamer_ignored_iff "int"
    [.group [.one (.delta true)], .none, .one (.renamer (some Renamer.primes))] _ (.within (.here _) _)
  rw [hsame]
  cases before with
  | nil =>
    rw [List.nil_append] at h
    exact Or.inl ⟨.renamer (some Renamer.primes), h ▸ by simp [Settings.leavesOf, Settings.leaves], rfl⟩
  | cons first rest =>
    rw [List.cons_append] at h h'
    rw [← (List.cons.inj h).1] at h'
    cases (List.cons.inj h').1

/-- Behind the reducer's own renamer it is not: a binder that was renamed before is now refused. -/
theorem foreign_renamer_displaces_own :
    Settings.Inserted (.foreignRenamer "int") [.one (.renamer (some Renamer.primes))]
      [.one (.renamer (some Renamer.primes)), .one (.foreignRenamer "int")] ∧
    ((ofSettings [.one (.renamer (some Renamer.primes))]).1.step
      (.app (.lam [0x78] (.lam [0x79] (.var [0x78]))) (.var [0x79]) : Term Arith.Value Bytes)).result =
        .ok (.lam [0x79, 0x27] (.var [0x79]), true) ∧
    ((ofSettings [.one (.renamer (some Renamer.primes)), .one (.foreignRenamer "int")]).1.step
      (.app (.lam [0x78] (.lam [0x79] (.var [0x78]))) (.var [0x79]) : Term Arith.Value Bytes)).result =
        .error (.error (.term (.capture [0x79] [0x78]))) :=
  ⟨.later _ (.here _), by decide +kernel, by decide +kernel⟩

end Reducer

end PostfixLambda
