import Mathlib.Data.List.Infix
import PixelWrap.Proofs.Occurrences
import PixelWrap.Shader.Basic

/-!
# The profiles of a generated file

What a file is compiled for is found by looking for words in it: for the models in its first
line, and for the entry points anywhere.  A generated file puts the models into its first line
and nothing else there that looks like one, because each model has a digit that nothing else in
the line has.  So a model is found if and only if it was asked for.  The entry point for pixels
is found because the function of the shader is named so.

The rest of the file is not under control.  If the entry point for vertices occurs in it, the
file is compiled for vertices as well.

## Main definitions

* `ShaderModel.distinct`: the models of a list, each once.

## Main results

* `ShaderModel.display_infix_metadataLine`: a model is named exactly if it is in the list.
* `Shader.firstLine_renderFile`: the first line of a file names its models.
* `detectProfiles_render`: **a file is compiled for the models that were asked for.**
-/

namespace PixelWrap

/-! ### The first line -/

/-- What stands in the first line. -/
theorem mem_metadataLine {c : Char} {ms : List ShaderModel} (h : c ∈ metadataLine ms) :
    c ∈ "// SM: ".toList ∨ c ∈ [',', ' '] ∨ ∃ m ∈ ms, c ∈ m.display := by
  refine (List.mem_append.mp h).imp_right fun hjoin => ?_
  refine (Text.mem_join hjoin).imp_right ?_
  rintro ⟨t, ht, hc⟩
  obtain ⟨m, hm, rfl⟩ := List.mem_map.mp ht
  exact ⟨m, hm, hc⟩

/-- The first line is one line, with either form of line ends. -/
theorem lineEnd_notMem_metadataLine {c : Char} (hc : c = '\n' ∨ c = '\r')
    (ms : List ShaderModel) : c ∉ metadataLine ms := by
  intro h
  rcases mem_metadataLine h with h | h | ⟨m, -, h⟩
  · rcases hc with rfl | rfl <;> revert h <;> decide
  · rcases hc with rfl | rfl <;> revert h <;> decide
  · rcases hc with rfl | rfl <;> revert h <;> cases m <;> decide

namespace ShaderModel

/-- The models of a list, each once and in order. -/
def distinct (ms : List ShaderModel) : List ShaderModel := [.v41, .v50].filter (· ∈ ms)

/-- The digit that a model alone has. -/
def digit : ShaderModel → Char
  | .v41 => '4'
  | .v50 => '5'

theorem digit_mem_display (m : ShaderModel) : m.digit ∈ m.display := by cases m <;> decide

theorem eq_of_digit_mem {m m' : ShaderModel} (h : m.digit ∈ m'.display) : m' = m := by
  revert h
  cases m <;> cases m' <;> decide

/-- A digit in the first line is that of a model in the list. -/
theorem mem_of_digit_mem_metadataLine {m : ShaderModel} {ms : List ShaderModel}
    (h : m.digit ∈ metadataLine ms) : m ∈ ms := by
  have hmark : m.digit ∉ "// SM: ".toList := by cases m <;> decide
  have hsep : m.digit ∉ [',', ' '] := by cases m <;> decide
  obtain ⟨m', hm', hdigit⟩ := ((mem_metadataLine h).resolve_left hmark).resolve_left hsep
  rwa [← eq_of_digit_mem hdigit]

/-- **A model is named in the first line exactly if it is in the list.** -/
theorem display_infix_metadataLine {m : ShaderModel} {ms : List ShaderModel} :
    m.display <:+: metadataLine ms ↔ m ∈ ms := by
  constructor
  · intro h
    exact mem_of_digit_mem_metadataLine (h.subset (digit_mem_display m))
  · intro h
    have hjoin := Text.infix_join (List.mem_map_of_mem (f := display) h) [',', ' ']
    exact hjoin.trans (List.suffix_append ..).isInfix

end ShaderModel

/-! ### Generated files -/

namespace Shader

/-- A file starts with the line of its models. -/
theorem exists_renderFile_eq (o : Options) (f : Function) :
    ∃ u, renderFile o f = metadataLine o.models ++ '\n' :: u := by
  refine ⟨"\n#include \"".toList ++ o.shaderInclude.toList ++ "\"\n\n".toList ++
    renderSignature o o.entryPoint f.signature ++ '\n' :: f.body ++ ['\n'], ?_⟩
  have hfront : "\n\n#include \"".toList = '\n' :: "\n#include \"".toList := by decide
  simp only [renderFile, hfront, List.append_assoc, List.cons_append]

/-- **The first line of a file names its models.** -/
theorem firstLine_renderFile (o : Options) (f : Function) :
    Text.firstLine (renderFile o f) = metadataLine o.models := by
  obtain ⟨u, hu⟩ := exists_renderFile_eq o f
  rw [hu]
  apply Text.firstLine_append (lineEnd_notMem_metadataLine (.inl rfl) _)
  intro hlast
  exact lineEnd_notMem_metadataLine (.inr rfl) _ (List.mem_of_getLast? hlast)

/-- The name of the function of a shader stands in its file. -/
theorem entryPoint_infix_renderFile (o : Options) (f : Function) :
    o.entryPoint.toList <:+: renderFile o f := by
  have hsignature : o.entryPoint.toList <:+: renderSignature o o.entryPoint f.signature :=
    ⟨renderType f.signature.returnType ++ [' '], '(' :: renderParams o f.signature.params ++
      ')' :: renderTarget o f.signature.returnType, by simp [renderSignature]⟩
  refine hsignature.trans ?_
  refine ⟨metadataLine o.models ++ "\n\n#include \"".toList ++ o.shaderInclude.toList ++
    "\"\n\n".toList, '\n' :: f.body ++ ['\n'], ?_⟩
  simp only [renderFile, List.append_assoc]

/-- The body of the function stands in the file. -/
theorem body_infix_renderFile (o : Options) (f : Function) : f.body <:+: renderFile o f := by
  refine ⟨metadataLine o.models ++ "\n\n#include \"".toList ++ o.shaderInclude.toList ++
    "\"\n\n".toList ++ renderSignature o o.entryPoint f.signature ++ ['\n'], ['\n'], ?_⟩
  simp only [renderFile, List.append_assoc, List.cons_append, List.nil_append]

end Shader

/-- **A file is compiled for the models that were asked for**, each once and in order, and for
pixels, if the name of its function holds their entry point.  For vertices it is compiled as well
exactly if their entry point occurs in it, and then first. -/
theorem detectProfiles_render (o : Options) (f : Function)
    (hf : f.signature.params.length ≤ o.maxParams)
    (hentry : "PSMain".toList <:+: o.entryPoint.toList) :
    ∃ s, Shader.render o f = .ok s ∧
      detectProfiles s.text =
        (if "VSMain".toList <:+: s.text then
          (ShaderModel.distinct o.models).map (Profile.mk .vertex) else []) ++
        (ShaderModel.distinct o.models).map (Profile.mk .pixel) := by
  have hrender : Shader.render o f = .ok _ := if_neg (Nat.not_lt.mpr hf)
  have hpixel : Text.contains Stage.pixel.entryPoint (Shader.renderFile o f) = true :=
    Text.contains_iff.mpr (hentry.trans (Shader.entryPoint_infix_renderFile o f))
  have hmodels : (ShaderModel.all.filter fun m =>
      Text.contains m.display (metadataLine o.models)) = ShaderModel.distinct o.models := by
    refine List.filter_congr fun m _ => ?_
    rw [Bool.eq_iff_iff, Text.contains_iff, ShaderModel.display_infix_metadataLine,
      decide_eq_true_iff]
  have hvertex : Text.contains Stage.vertex.entryPoint (Shader.renderFile o f) = true ↔
      "VSMain".toList <:+: Shader.renderFile o f := Text.contains_iff
  refine ⟨_, hrender, ?_⟩
  show detectProfiles (Shader.renderFile o f) = (if _ <:+: Shader.renderFile o f then _ else _) ++ _
  rw [detectProfiles, Shader.firstLine_renderFile, hmodels]
  by_cases hoccurs : "VSMain".toList <:+: Shader.renderFile o f
  · rw [if_pos hoccurs]
    simp [Stage.all, hvertex.mpr hoccurs, hpixel]
  · rw [if_neg hoccurs]
    simp [Stage.all, mt hvertex.mp hoccurs, hpixel]

/-- A function whose body names another model and calls a function for vertices. -/
def vertexFunction : Function where
  signature := ⟨"f", .nowhere, ⟨"float".toList, false⟩, [], none, []⟩
  body := "\x7b return VSMain(4_1); \x7d".toList
  span := ⟨0, 23⟩

/-- One model, asked for twice, and a name around that of the entry point. -/
def repeatedModel : Options := { models := [.v50, .v50], entryPoint := "aPSMain4_1" }

/-- A model in the body or in a name does not count, and an entry point in the body does. -/
theorem detectProfiles_render_vertexFunction :
    vertexFunction.signature.params.length ≤ repeatedModel.maxParams ∧
      "PSMain".toList <:+: repeatedModel.entryPoint.toList ∧
      ∃ s, Shader.render repeatedModel vertexFunction = .ok s ∧
        detectProfiles s.text = [⟨.vertex, .v50⟩, ⟨.pixel, .v50⟩] := by
  have hparams : vertexFunction.signature.params.length ≤ repeatedModel.maxParams := Nat.zero_le _
  have hentry : "PSMain".toList <:+: repeatedModel.entryPoint.toList :=
    ⟨"a".toList, "4_1".toList, by decide⟩
  have hbody : "VSMain".toList <:+: vertexFunction.body :=
    ⟨"\x7b return ".toList, "(4_1); \x7d".toList, by decide⟩
  have hmodels : ShaderModel.distinct repeatedModel.models = [.v50] := by decide
  obtain ⟨s, hs, hprofiles⟩ := detectProfiles_render repeatedModel vertexFunction hparams hentry
  have hfile : Shader.renderFile repeatedModel vertexFunction = s.text :=
    congrArg Shader.text (Except.ok.inj hs)
  have hvertex : "VSMain".toList <:+: s.text :=
    hfile ▸ hbody.trans (Shader.body_infix_renderFile repeatedModel vertexFunction)
  rw [if_pos hvertex, hmodels] at hprofiles
  exact ⟨hparams, hentry, s, hs, hprofiles⟩

end PixelWrap
