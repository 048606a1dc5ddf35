import MacScheduler.Config.Codec
import MacScheduler.Document.EnvText
import MacScheduler.Document.Json
import MacScheduler.Document.Toml

/-!
# Loading a configuration

A configuration is assembled from layers, each overriding those below it: the
defaults, a file, the environment, and last either a JSON text or single
settings.  The merged document is then read and checked as a whole.
-/

namespace MacScheduler

/-- The readers of the texts that layers are written in. -/
structure Readers where
  toml : String → Option Value
  json : String → Option Value
  env : String → Value

def Readers.standard : Readers := ⟨Toml.read?, Json.read?, EnvText.read⟩

/-- What a caller lays on top of file and environment. -/
inductive Override where
  | none
  | json (text : String)
  /-- Values at dotted keys, in the order in which they are applied. -/
  | settings (values : List (String × Value))

namespace Config

/-- Sections that environment variables may set. -/
def envSections : List String := ["harq", "policy", "timing", "pucch"]

/-- The beginning of the names of the variables that set a section. -/
def announced (owner : String) : List Char := ("enb_sched_" ++ owner ++ "_").toList

/-- The path that a variable sets: the section that its name announces and the dotted
rest of the name, in lower case. -/
def envPath? (name : String) : Option (List String) :=
  let name := name.toLower.toList
  envSections.findSome? fun owner ↦
    if (announced owner).isPrefixOf name ∧ (announced owner).length < name.length then
      some (owner :: Value.pathOf (name.drop (announced owner).length))
    else Option.none

/-- The value wrapped into the dictionaries of a dotted key. -/
def settingLayer? (key : String) (value : Value) : Option Value :=
  let layer := Value.nest (Value.pathOf key.toList) value
  if layer.isDict then some layer else Option.none

def extract (v : Value) : Except ConfigError Config :=
  match ofValue? .lenient v with
  | Option.none => .error .unreadable
  | some c => (c.check).map fun _ ↦ c

section

variable (readers : Readers)

def envLayer (env : List (String × String)) : Value :=
  env.foldl
    (fun layer (name, text) ↦
      match envPath? name with
      | some path => layer.merge (Value.nest path (readers.env text))
      | Option.none => layer)
    (.dict [])

/-- The layer of a file, empty when there is none. -/
def fileLayer? : Option String → Option Value
  | Option.none => some (.dict [])
  | some text => readers.toml text

def Override.apply? (base : Value) : Override → Option Value
  | .none => some base
  | .json text =>
      (readers.json text).bind fun v ↦ if v.isDict then some (base.merge v) else Option.none
  | .settings values =>
      values.foldlM (fun base (key, value) ↦ (settingLayer? key value).map base.merge) base

def layered? (file : Option String) (env : List (String × String)) (top : Override) :
    Option Value := do
  let file ← fileLayer? readers file
  Override.apply? readers
    (((({} : Config).toValue).merge file).merge (envLayer readers env)) top

def loadWith (file : Option String) (env : List (String × String)) (top : Override) :
    Except ConfigError Config :=
  match layered? readers file env top with
  | Option.none => .error .unreadable
  | some v => extract v

end

/-- The configuration assembled from file, environment and override. -/
def load : Option String → List (String × String) → Override → Except ConfigError Config :=
  loadWith .standard

end Config

end MacScheduler
