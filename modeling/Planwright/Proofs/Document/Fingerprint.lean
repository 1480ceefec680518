import Planwright.Command.Run
import Planwright.Proofs.Json.Compact

/-! Fingerprints do not see the formatting of a document, and documents that differ in nothing else give the same plan. -/

namespace Planwright.Document

theorem eq_of_ofText? {text other : String} (h : Json.ofText? other = Json.ofText? text) :
    fingerprint other = fingerprint text ∧ decode other = decode text ∧
      ∀ s options, Request.processText s options other = Request.processText s options text := by
  have hprint : fingerprint other = fingerprint text := by rw [fingerprint, fingerprint, h]
  have hdecode : decode other = decode text := by rw [decode, decode, h]
  refine ⟨hprint, hdecode, fun s options => ?_⟩
  funext invocation cache
  simp only [Request.processText, Request.cacheKey, Request.rewrite, Request.optimizeDocument, hprint, hdecode]

/-- The text that is hashed for a document is the document's own without the blanks outside strings. It is read as the same value,
    so it is spelled and hashed as it stands, and decodes to the same document or fails with the same error. Whatever else is
    spelled so can stand in for the document. -/
theorem fingerprint_render {text : String} {v : Json} (h : Json.ofText? text = some v) :
    fingerprint text = .ok (SipHash.hash 0x646f63756d656e74 0x6f6374706c616e31 (SipHash.textBytes v.render)) ∧
    v.render.toList = Json.compact text.toList ∧
    Json.ofText? v.render = some v ∧
    fingerprint v.render = fingerprint text ∧
    decode v.render = decode text ∧
    ∀ (other : String) (w : Json), Json.ofText? other = some w → w.render = v.render →
      fingerprint other = fingerprint text ∧ decode other = decode text ∧
        ∀ s options, Request.processText s options other = Request.processText s options text := by
  obtain ⟨hspelled, hread⟩ := Json.ofText?_render h
  have hsame := eq_of_ofText? (hread.trans h.symm)
  refine ⟨by rw [fingerprint, h]; rfl, hspelled, hread, hsame.1, hsame.2.1, fun other w hw hrender => ?_⟩
  have hwv : some w = some v := by rw [← (Json.ofText?_render hw).2, hrender, hread]
  exact eq_of_ofText? (by rw [hw, h, hwv])

/-- A document with blanks, an escaped quote, an odd number and a member given twice. -/
def spaced : String := " \x7b \"version\" : 1 ,\n \"a\\\" b\" : [ -InF , null ] , \"version\":\t\x7b\x7d \x7d "

theorem fingerprint_render_spaced :
    fingerprint spaced = fingerprint "\x7b\"version\":1,\"a\\\" b\":[-InF,null],\"version\":\x7b\x7d\x7d" := by
  obtain ⟨v, hv⟩ := Option.isSome_iff_exists.mp (show (Json.ofText? spaced).isSome = true by decide +kernel)
  have h := fingerprint_render hv
  have hrender : v.render = "\x7b\"version\":1,\"a\\\" b\":[-InF,null],\"version\":\x7b\x7d\x7d" :=
    String.ext (h.2.1.trans (by decide +kernel))
  rw [← hrender]
  exact h.2.2.2.1.symm

end Planwright.Document
