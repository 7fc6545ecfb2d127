import Grove.Problem
import Grove.Tree.Drawing

/-!
# `Grove.Settings.Basic` — settings and overlays

Settings say how outlines are laid out and which rendering is preferred. They come in layers: an overlay gives
some of them, and `Settings.merge` puts it over what is there already.
-/

namespace Grove

/-- The two renderings. -/
inductive RenderStyle where
  | outline
  | tree
deriving DecidableEq, Repr

namespace RenderStyle

def name : RenderStyle → String
  | outline => "outline"
  | tree => "tree"

/-- The style with exactly this name. -/
def ofName? : String → Option RenderStyle
  | "outline" => some outline
  | "tree" => some tree
  | _ => none

end RenderStyle

/-- How trees are printed, and how outlines are laid out both when read and when printed. -/
structure Settings where
  style : RenderStyle
  indent : Nat
  lead : String
deriving DecidableEq, Repr

/-- Settings of which some may be left open. -/
structure Overlay where
  style : Option RenderStyle
  indent : Option Nat
  lead : Option String
deriving DecidableEq, Repr

namespace Overlay

/-- Everything left open. -/
def empty : Overlay where
  style := none
  indent := none
  lead := none

end Overlay

namespace Settings

/-- The settings where nothing else is said. -/
def standard : Settings where
  style := .outline
  indent := OutlineStyle.standard.indent
  lead := OutlineStyle.standard.lead

instance : Inhabited Settings := ⟨standard⟩

/-- The overlay wins wherever it says something. -/
def merge (base : Settings) (overlay : Overlay) : Settings where
  style := overlay.style.getD base.style
  indent := overlay.indent.getD base.indent
  lead := overlay.lead.getD base.lead

/-- The layout of outlines. -/
def outlineStyle (s : Settings) : OutlineStyle where
  indent := s.indent
  lead := s.lead

/-- Settings are in order if outlines are indented at all. -/
def validate (s : Settings) : Except SettingsFault Settings :=
  if s.indent = 0 then .error .zeroIndent else .ok s

end Settings

end Grove
