import PostfixLambda.Proofs.Reduction.Settings

/-! The last setting of a kind counts. However settings are grouped, the reducer they make is the one that their single
    settings make, one after the other; and of those, the last of each kind decides what the reducer has of it, whatever
    the others are. -/

namespace PostfixLambda

variable {S : Type}

namespace Setting

/-! ### Kinds of settings -/

/-- The log level that a setting gives. -/
def logLevel? : Setting S → Option (Option Bytes)
  | .log level? => some level?
  | .maxSteps _ | .delta _ | .renamer _ | .foreignRenamer _ => none

/-- The step limit that a setting gives. -/
def stepLimit? : Setting S → Option Int
  | .maxSteps n => some n
  | .log _ | .delta _ | .renamer _ | .foreignRenamer _ => none

/-- Whether a setting turns the delta rule on or off. -/
def delta? : Setting S → Option Bool
  | .delta enabled => some enabled
  | .log _ | .maxSteps _ | .renamer _ | .foreignRenamer _ => none

/-- The renamer that a setting chooses. -/
def renamer? : Setting S → Option (RenamerChoice S)
  | .renamer rename? => some (.own rename?)
  | .foreignRenamer symbolType => some (.foreign symbolType)
  | .log _ | .maxSteps _ | .delta _ => none

/-- What the last of the settings of a kind gives, if there is one. -/
def last? {α : Type} (kind : Setting S → Option α) (settings : List (Setting S)) : Option α :=
  (settings.filterMap kind).getLast?

theorem last?_cons {α : Type} (kind : Setting S → Option α) (first : Setting S) (rest : List (Setting S)) :
    last? kind (first :: rest) = (last? kind rest).or (kind first) := by
  unfold last?
  cases h : kind first with
  | none => simp [h]
  | some a => simp [h, List.getLast?_cons]

end Setting

/-- The renamer, if the one chosen is of the reducer's own symbols. -/
def RenamerChoice.own? : RenamerChoice S → Option (Renamer S)
  | .own rename? => rename?
  | .absent | .foreign _ => none

/-! ### One setting after the other -/

/-- What is read off a configuration, if it is changed just by the settings of a kind, is what the last of them made
    it. -/
theorem Configuration.read_foldl_set {α β : Type} (read : Configuration S → β) (kind : Setting S → Option α)
    (value : α → β)
    (hset : ∀ config setting, read (config.set setting) = ((kind setting).map value).getD (read config))
    (settings : List (Setting S)) (config : Configuration S) :
    read (settings.foldl Configuration.set config) = ((Setting.last? kind settings).map value).getD (read config) := by
  induction settings generalizing config with
  | nil => rfl
  | cons first rest ih =>
    rw [List.foldl_cons, ih, hset, Setting.last?_cons]
    cases Setting.last? kind rest <;> rfl

theorem Settings.leavesOf_map_one (leaves : List (Setting S)) : leavesOf (leaves.map Settings.one) = leaves := by
  induction leaves with
  | nil => rfl
  | cons first rest ih =>
    rw [List.map_cons, leavesOf, ih]
    rfl

namespace Reducer

open Setting (last?)

theorem rename?_ofConfiguration (config : Configuration S) :
    (ofConfiguration config).strategy.rename? = config.renamer.own? := by
  simp only [ofConfiguration]
  cases config.renamer <;> rfl

/-- However settings are grouped, and whatever is missing in the groups, they make the same reducer as their single
    settings in a row, and log the same. The log level, the step limit, the delta rule and the renamer are each what the
    last setting of the kind says, and as they are without settings if there is none; a negative limit is no limit, and
    a renamer of other symbols is no renamer, which is logged if there is a log. -/
theorem last_setting_decides (settings : List (Settings S)) :
    let leaves := Settings.leavesOf settings
    ofSettings settings = ofSettings (leaves.map .one) ∧
    (ofSettings settings).1.logLevel? = (last? Setting.logLevel? leaves).getD none ∧
    (ofSettings settings).1.maxSteps = ((last? Setting.stepLimit? leaves).map Int.toNat).getD 0 ∧
    (ofSettings settings).1.strategy.delta = (last? Setting.delta? leaves).getD false ∧
    (ofSettings settings).1.strategy.rename? = (last? Setting.renamer? leaves).bind RenamerChoice.own? ∧
    (ofSettings settings).1.steps = 0 ∧
    (ofSettings settings).2 =
      match last? Setting.renamer? leaves, (last? Setting.logLevel? leaves).getD none with
      | some (.foreign symbolType), some _ => ["ignoring renamer lambda.Renamer[" ++ symbolType ++ "]"]
      | _, _ => [] := by
  intro leaves
  have hlevel := Configuration.read_foldl_set Configuration.logLevel? Setting.logLevel? id
    (fun _ setting => by cases setting <;> rfl) leaves {}
  have hlimit := Configuration.read_foldl_set Configuration.maxSteps Setting.stepLimit? Int.toNat
    (fun _ setting => by cases setting <;> rfl) leaves {}
  have hdelta := Configuration.read_foldl_set Configuration.delta Setting.delta? id
    (fun _ setting => by cases setting <;> rfl) leaves {}
  have hrenamer := Configuration.read_foldl_set Configuration.renamer Setting.renamer? id
    (fun _ setting => by cases setting <;> rfl) leaves {}
  simp only [Option.map_id, id_eq] at hlevel hdelta hrenamer
  have hconfig : Settings.configuration settings = leaves.foldl Configuration.set {} := Settings.configuration_eq settings
  have hflat : Settings.configuration (leaves.map .one) = leaves.foldl Configuration.set {} := by
    rw [Settings.configuration_eq, Settings.leavesOf_map_one]
  simp only [ofSettings, hconfig, hflat]
  refine ⟨trivial, hlevel, hlimit, hdelta, ?_, rfl, ?_⟩
  · rw [rename?_ofConfiguration, hrenamer]
    cases last? Setting.renamer? leaves <;> rfl
  · rw [startLog, hrenamer, hlevel]
    cases last? Setting.renamer? leaves with
    | none => rfl
    | some choice =>
      cases choice with
      | absent | own rename? => rfl
      | foreign symbolType =>
        cases (last? Setting.logLevel? leaves).getD none <;> rfl

/-- A limit in an inner group takes the place of one before it, and below zero it is no limit. -/
example :
    (ofSettings [.group [.one (.maxSteps 5), .none, .group [.group [], .one (.maxSteps (-3))]],
      .group [.one (.delta true)], .none] : Reducer Bytes × List Bytes).1.maxSteps = 0 := rfl

end Reducer

end PostfixLambda
