import Higress.Lib.Json
import Higress.Ingress.Template

/-!
Substitution of value references in a generated config.

`ProcessConfig` works on the JSON text of the spec: it finds the references in
the text, replaces them there one after another, each at the first place where
its text occurs, and reads the result back. That agrees with a substitution in
the string leaves of the spec only as long as the text of the leaves is never
confused with anything else: a reference may reach over the quotes into the
next field, a value may contain quotes or backslashes, and a value may contain
the text of a reference that is still to be replaced. `Clean` rules these out.

The bookkeeping of secret dependencies is left out. It has no part in the spec
or in the error that is returned.
-/

namespace Higress.Ingress.Template

open Higress.Lib

/-- `TemplateProcessor`. -/
structure TemplateProcessor where
  getValue : GoString → GoString → GoString → GoString → Except GoString GoString
  «namespace» : GoString

/-- A reference without a namespace means the one of the processor. -/
def TemplateProcessor.namespaceOf (p : TemplateProcessor) (r : Ref) : GoString :=
  if r.namespace ≠ [] then r.namespace else p.namespace

def TemplateProcessor.resolve (p : TemplateProcessor) (r : Ref) : Except GoString GoString :=
  p.getValue r.valueType (p.namespaceOf r) r.name r.key

/-- The value put in for a reference, when there is one. -/
def TemplateProcessor.valueOf (p : TemplateProcessor) (r : Ref) : GoString :=
  match p.resolve r with
  | .ok value => value
  | .error _ => []

/-- The references in the string leaves of a spec. -/
def leafRefs (spec : Json) : List Ref := spec.leaves.flatMap templateRegex.findAll

/-- The tokens of a string leaf in the text: its references, and between them
the escaped rest. -/
def leafTokens (s : GoString) : List (UInt8 ⊕ Ref) :=
  (templateRegex.segments s).flatMap
    (Sum.elim (fun x => (Json.escape x).map Sum.inl) (fun r => [Sum.inr r]))

/-- The references found in the text are those of the string leaves, each in
its place: none reaches out of a leaf, none is in a key, and none has escaped
bytes in it. -/
def Aligned (spec : Json) : Prop :=
  templateRegex.tokens (Json.marshal spec) =
    spec.write (fun s => s.map Sum.inl) (fun k => (Json.escape k).map Sum.inl) leafTokens

/-- A value that stands for itself between quotes. -/
def Plain (value : GoString) : Prop :=
  (∀ b ∈ value, Json.isPlain b = true) ∧ Json.validUTF8 value = true

/-- A part of the text with the references replaced. -/
def TemplateProcessor.render (p : TemplateProcessor) (ts : List (UInt8 ⊕ Ref)) : GoString :=
  ts.flatMap (Sum.elim (fun c => [c]) p.valueOf)

/-- The conditions under which the text is never confused. -/
structure Clean (p : TemplateProcessor) (spec : Json) : Prop where
  aligned : Aligned spec
  plain : ∀ r ∈ leafRefs spec, ∀ value, p.resolve r = .ok value → Plain value
  /-- What has been put in before a reference does not complete an earlier copy
  of its text. -/
  inOrder : (∀ r ∈ leafRefs spec, ∃ value, p.resolve r = .ok value) →
    ∀ pre r post, templateRegex.tokens (Json.marshal spec) = pre ++ Sum.inr r :: post →
      Strings.index (p.render pre ++ r.text) r.text = some (p.render pre).length

/-! ### The loop -/

section

variable {p : TemplateProcessor}

end

/-! ### Leaves -/

section

variable {p : TemplateProcessor} {spec : Json}

end

end Higress.Ingress.Template
