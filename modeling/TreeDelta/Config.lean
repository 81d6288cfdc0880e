import TreeDelta.Data.Options
import TreeDelta.Data.Toml
set_option autoImplicit false

namespace TreeDelta

structure Config where
  diff : Options
  extensions : Option String
deriving DecidableEq, Repr

namespace Config

def default : Config := ⟨.default, none⟩

def ofData? (d : Data) : Option Config := do
  let fields ← d.fields? .toml ["diff", "extensions"]
  return {
    diff := ← Data.orDefault? .default (Options.ofData? .toml) (fields.getD 0 none)
    extensions := ← Data.orDefault? none (Data.optional? Data.text?) (fields.getD 1 none) }

def parse? (s : String) : Option Config := (Toml.parse? s).bind ofData?

end Config

end TreeDelta
