import Lox.Shell.Settings
import Lox.Yaml.Meaning

/-!
Settings files: a mapping with the names of settings as keys. A key that names no setting is ignored, and
one whose value is null says nothing. A mapping may take over entries of others, which its own go before.
-/

namespace Lox

namespace SettingsFile

open Yaml (Node)

/-- Settings with one entry more, unless its value is of the wrong kind. -/
def enter? (settings : Settings) (key : Bytes) (value : Node) : Option Settings :=
  if key = bytes "log_level" then
    value.text?.map fun text => { settings with logLevel := text.getD settings.logLevel }
  else if key = bytes "prompt" then
    value.text?.map fun text => { settings with prompt := text.getD settings.prompt }
  else if key = bytes "history_file" then
    value.text?.map fun text => { settings with historyFile := text.getD settings.historyFile }
  else if key = bytes "color" then
    value.bool?.map fun color => { settings with color := color }
  else
    some settings

def names : List Bytes :=
  ["log_level", "prompt", "history_file", "color"].map bytes

/-- Whether no key is written twice. -/
def hasDistinctKeys : List (Node × Node) → Bool
  | [] => true
  | (key, _) :: entries => !entries.any (fun e => key.sameKey e.1) && hasDistinctKeys entries

/-- Enters the entries of one mapping whose keys are not taken yet. Yields the keys taken and those of this
mapping; no setting may be named twice. -/
def enterOwn? (settings : Settings) (taken own : List Bytes) :
    List (Node × Node) → Option (Settings × List Bytes)
  | [] => some (settings, own)
  | (key, value) :: entries =>
      if key.isMerge then
        enterOwn? settings taken own entries
      else
        match key.text? with
        | none => none
        | some none => enterOwn? settings taken own entries
        | some (some name) =>
            if taken.contains name then
              enterOwn? settings taken own entries
            else if names.contains name && own.contains name then
              none
            else
              match enter? settings name value with
              | some settings => enterOwn? settings taken (name :: own) entries
              | none => none

/-- The value of the last key that asks to take over other mappings. -/
def merged? (entries : List (Node × Node)) : Option Node :=
  (entries.reverse.find? (·.1.isMerge)).map (·.2)

mutual

/-- Enters a mapping and the mappings that it takes over. -/
def enterAll? : Nat → Settings → List Bytes → Node → Option (Settings × List Bytes)
  | 0, _, _, _ => none
  | n + 1, settings, taken, node =>
      match node.content with
      | .mapping entries =>
          if !hasDistinctKeys entries then
            none
          else
            match enterOwn? settings taken [] entries with
            | none => none
            | some (settings, own) =>
                match merged? entries with
                | none => some (settings, own ++ taken)
                | some other => takeOver? n settings (own ++ taken) other
      | _ => none

/-- Takes over a mapping, or the mappings of a sequence one after another. -/
def takeOver? : Nat → Settings → List Bytes → Node → Option (Settings × List Bytes)
  | 0, _, _, _ => none
  | n + 1, settings, taken, node =>
      match node with
      | .sequence items => takeOverEach? n settings taken items
      | other => enterAll? n settings taken other

def takeOverEach? : Nat → Settings → List Bytes → List Node → Option (Settings × List Bytes)
  | 0, _, _, _ => none
  | n + 1, settings, taken, items =>
      match items with
      | [] => some (settings, taken)
      | item :: items =>
          match enterAll? n settings taken item with
          | some (settings, taken) => takeOverEach? n settings taken items
          | none => none

end

end SettingsFile

/-- Reads a settings file, unless it is malformed. A document that is missing or null says nothing. -/
def Settings.ofDocument? (document : Bytes) : Option Settings :=
  match Yaml.read? document with
  | none => none
  | some none => some .silent
  | some (some node) =>
      if node.text? = some none then some .silent
      else (SettingsFile.enterAll? (2 * document.length + 4) .silent [] node).map (·.1)

end Lox
