import JavaMend.Json.Basic
import JavaMend.Settings.Preset
import JavaMend.Text.Ordered

/-!
# Where settings come from

For each area that does not follow the preset, who set it last. Areas are
named by dotted paths such as `driver.*`.
-/

namespace JavaMend

/-- Who set an area. -/
inductive ConfigSource where
  | preset (preset : Preset)
  /-- A document, by the name it was read under. -/
  | document (origin : String)
  /-- The program itself. -/
  | builder
deriving DecidableEq

namespace ConfigSource

def text : ConfigSource → String
  | preset p => "preset:" ++ p.name
  | document origin => "yaml:" ++ origin
  | builder => "builder"

def toJson : ConfigSource → Json
  | preset p => .obj [("Preset", .str p.name)]
  | document origin => .obj [("Yaml", .obj [("path", .str origin)])]
  | builder => .str "Builder"

end ConfigSource

/-- Who set what. -/
structure Provenance where
  preset : Preset
  /-- The areas that were set, in order. -/
  overrides : List (String × ConfigSource)

namespace Provenance

def ofPreset (preset : Preset) : Provenance := { preset, overrides := [] }

/-- Records who set an area; whoever came before is forgotten. -/
def track (p : Provenance) (area : String) (source : ConfigSource) : Provenance :=
  { p with overrides := insertEntry area source p.overrides }

/-- Who set an area, if anybody. -/
def setter? (p : Provenance) (area : String) : Option ConfigSource := p.overrides.lookup area

/-- Who set an area: the preset, if nobody else. -/
def setterOf (p : Provenance) (area : String) : ConfigSource :=
  (p.setter? area).getD (.preset p.preset)

/-- The area of the settings of one remediation. -/
def remediationArea (id : String) : String := s!"remediations.{id}.*"

/-- Who set the settings of one remediation. -/
def setterOfRemediation (p : Provenance) (id : String) : ConfigSource :=
  p.setterOf (remediationArea id)

/-- A report with a line for each area. -/
def summary (p : Provenance) : String :=
  p.overrides.foldl (fun out (area, source) => out ++ s!"\n  {area} <- " ++ source.text)
    ("Base preset: " ++ p.preset.name)

def toJson (p : Provenance) : Json :=
  .obj [("preset", .str p.preset.name),
    ("overrides", .obj (p.overrides.map fun (area, source) => (area, source.toJson)))]

end Provenance

end JavaMend
