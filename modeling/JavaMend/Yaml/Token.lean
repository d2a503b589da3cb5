import JavaMend.Yaml.Basic

/-!
# Tokens of YAML documents

The parts that a document is made of before they are put together. The ends of
block collections and the beginnings of keys are tokens too, though nothing may
be written for them.
-/

namespace JavaMend.Yaml

inductive Token where
  | versionDirective (major minor : Nat)
  | tagDirective (handle start : String)
  | documentStart
  | documentEnd
  | blockSeqStart
  | blockMapStart
  /-- The end of a block sequence or mapping. -/
  | blockEnd
  | flowSeqStart
  | flowSeqEnd
  | flowMapStart
  | flowMapEnd
  /-- Before an item of a block sequence. -/
  | blockEntry
  /-- Between the parts of a flow collection. -/
  | flowEntry
  | key
  | value
  | reference (name : String)
  | anchor (name : String)
  | tag (handle suffix : String)
  | scalar (style : ScalarStyle) (text : String)

end JavaMend.Yaml
