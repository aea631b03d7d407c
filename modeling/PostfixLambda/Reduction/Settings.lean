import PostfixLambda.Reduction.Step

/-! Settings of a reducer: four of them, given in any order and grouped at will; the last one given of a kind
    counts. -/

namespace PostfixLambda

/-- One setting. -/
inductive Setting (S : Type) where
  /-- Traces each step at a log level, or not at all. -/
  | log (level? : Option Bytes)
  /-- Limits the steps to a normal form; zero, or less, is no limit. -/
  | maxSteps (n : Int)
  /-- Whether constants are applied to constants. -/
  | delta (enabled : Bool)
  /-- The renamer of capturing binders, if any. -/
  | renamer (rename? : Option (Renamer S))
  /-- A renamer of symbols of another type, which is named. -/
  | foreignRenamer (symbolType : Bytes)

/-- Settings, grouped. -/
inductive Settings (S : Type) where
  | none
  | one (setting : Setting S)
  | group (members : List (Settings S))
  deriving Inhabited

/-- The renamer among the settings. -/
inductive RenamerChoice (S : Type) where
  | absent
  | own (rename? : Option (Renamer S))
  | foreign (symbolType : Bytes)

/-- What the settings come to. -/
structure Configuration (S : Type) where
  logLevel? : Option Bytes := none
  maxSteps : Nat := 0
  delta : Bool := false
  renamer : RenamerChoice S := .absent

variable {S : Type}

/-- The configuration with one more setting. -/
def Configuration.set (config : Configuration S) : Setting S → Configuration S
  | .log level? => { config with logLevel? := level? }
  | .maxSteps n => { config with maxSteps := n.toNat }
  | .delta enabled => { config with delta := enabled }
  | .renamer rename? => { config with renamer := .own rename? }
  | .foreignRenamer symbolType => { config with renamer := .foreign symbolType }

/-! ### Groups -/

/-- Settings put together: one, or several in order. -/
inductive Bundle (S : Type) where
  | one (setting : Setting S)
  | several (parts : List (Bundle S))

namespace Bundle

mutual

/-- The configuration with all the settings, from left to right. -/
def apply (config : Configuration S) : Bundle S → Configuration S
  | .one setting => config.set setting
  | .several parts => applyAll config parts

/-- The configuration with the settings of every part, from left to right. -/
def applyAll (config : Configuration S) : List (Bundle S) → Configuration S
  | [] => config
  | first :: rest => applyAll (apply config first) rest

end

/-- The parts that a bundle gets: what is missing is passed over, and several settings are taken apart. -/
def partsOf : List (Option (Bundle S)) → List (Bundle S)
  | [] => []
  | none :: rest => partsOf rest
  | some (.several parts) :: rest => parts ++ partsOf rest
  | some (.one setting) :: rest => .one setting :: partsOf rest

/-- Puts together what is given; a single part stands for itself. -/
def ofList (given : List (Option (Bundle S))) : Bundle S :=
  match partsOf given with
  | [part] => part
  | parts => .several parts

end Bundle

namespace Settings

mutual

/-- The bundle that settings come to, each group put together once its members are. -/
def bundle? : Settings S → Option (Bundle S)
  | .none => Option.none
  | .one setting => some (.one setting)
  | .group members => some (.ofList (bundles members))

/-- The bundles that the members come to. -/
def bundles : List (Settings S) → List (Option (Bundle S))
  | [] => []
  | first :: rest => bundle? first :: bundles rest

end

/-- The configuration that settings come to. -/
def configuration (settings : List (Settings S)) : Configuration S := (Bundle.ofList (bundles settings)).apply {}

end Settings

end PostfixLambda
