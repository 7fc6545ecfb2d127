import Grove.Proofs.Toml.Document
import Grove.Settings.File

/-!
# `Proofs.Settings.File` — printed settings are read back

The file that gives all settings is four lines: the section and the three settings. So it is read as four
statements (`readStatements_tomlLines`), which make up a table with one section of three entries, and these are
the settings that were printed (`ofText?_tomlLines`).
-/

namespace Grove

open Toml

namespace Settings

/-- The lines of a file that gives all settings. -/
def tomlLines (s : Settings) : List (List Char) :=
  [ '[' :: "render".toList ++ [']', '\n'],
    "style".toList ++ ' ' :: '=' :: ' ' :: (writeString s.style.name).toList ++ ['\n'],
    "indent".toList ++ ' ' :: '=' :: ' ' :: Nat.toDigits 10 s.indent ++ ['\n'],
    "prefix".toList ++ ' ' :: '=' :: ' ' :: (writeString s.lead).toList ++ ['\n'] ]

/-- What these lines say. -/
def tomlStatements (s : Settings) : List Statement :=
  [.header ["render"], .pair ["style"] (.string s.style.name), .pair ["indent"] (.integer s.indent),
    .pair ["prefix"] (.string s.lead)]

theorem toToml_eq_error_iff {s : Settings} {fault : SettingsFault} :
    s.toToml = .error fault ↔ maxWritten < s.indent ∧ fault = .indentTooLarge := by
  unfold toToml
  split
  · rename_i hlt
    simp [hlt, eq_comm]
  · rename_i hlt
    simp [hlt]

theorem toToml_eq_ok_iff {s : Settings} {text : String} :
    s.toToml = .ok text ↔ s.indent ≤ maxWritten ∧ text = String.ofList s.tomlLines.flatten := by
  have htext : String.ofList s.tomlLines.flatten = "[render]\nstyle = " ++ writeString s.style.name ++ "\nindent = "
      ++ toString s.indent ++ "\nprefix = " ++ writeString s.lead ++ "\n" := by
    rw [← String.toList_inj, String.toList_ofList, Nat.toString_eq_ofList_toDigits]
    simp [tomlLines]
  unfold toToml
  split
  · rename_i hlt
    simp [Nat.not_le.2 hlt]
  · rename_i hlt
    simp [Nat.not_lt.1 hlt, htext, eq_comm]

/-- **The printed lines are read as what they say.** -/
theorem readStatements_tomlLines {s : Settings} (h : s.indent ≤ maxWritten) :
    readStatements s.tomlLines.flatten = some s.tomlStatements := by
  have hheader : IsBareKey "render" := ⟨by decide, by decide⟩
  have hstyle : IsBareKey "style" := ⟨by decide, by decide⟩
  have hindent : IsBareKey "indent" := ⟨by decide, by decide⟩
  have hlead : IsBareKey "prefix" := ⟨by decide, by decide⟩
  exact readStatements_flatten (.cons (isLine_header hheader) (.cons (isLine_string hstyle s.style.name)
    (.cons (isLine_integer hindent h) (.cons (isLine_string hlead s.lead) .nil))))

theorem ofText?_tomlLines {s : Settings} (h : s.indent ≤ maxWritten) :
    Overlay.ofText? (String.ofList s.tomlLines.flatten) = some ⟨some s.style, some s.indent, some s.lead⟩ := by
  have htable : buildTable s.tomlStatements = some [("render", .table [("style", .string s.style.name),
      ("indent", .integer s.indent), ("prefix", .string s.lead)])] := rfl
  have hstyle : RenderStyle.ofName? s.style.name = some s.style := by
    cases s.style <;> rfl
  unfold Overlay.ofText? readDocument
  rw [String.toList_ofList, readStatements_tomlLines h]
  show (buildTable s.tomlStatements >>= _) = _
  rw [htable]
  show (Overlay.optional RenderStyle.ofValue? (some (.string s.style.name)) >>= _) = _
  rw [Overlay.optional, RenderStyle.ofValue?, hstyle]
  rfl

end Settings

end Grove
