import MarketFeed.Proofs.Group.Bounds
import MarketFeed.Proofs.Stream.Contract
import MarketFeed.Proofs.Stream.RoundTrip

/-!
# What a slot holds

Whatever a decoder has read, given up or been reset in the middle of, every field of every slot holds
values of the kind it was declared with, and every group has rows that its dictionary fits. So a
delta always has something to count from, and the rows can be read by index.
-/

namespace MarketFeed

/-- Both values are of the kind that the field was declared with. -/
def Field.HoldsKind (f : Field) : Prop :=
  f.current.value.hasKind f.decl.kind = true ∧ f.previous.value.hasKind f.decl.kind = true

theorem Field.Kinded.holdsKind {f : Field} (h : f.Kinded) : f.HoldsKind := ⟨h.current, h.previous⟩

/-- The rows that are kept for later stand behind those in use. -/
def Group.allocated (g : Group) : List Row := g.rows ++ g.spare

theorem Group.Formed.exists_row {g : Group} (h : g.Formed) {i : Nat} (hi : i < g.count) :
    ∃ row, g.allocated[i]? = some row ∧ row.length = g.dictionary.length := by
  have hi' : i < g.allocated.length := by
    rw [allocated, List.length_append]
    exact Nat.lt_add_right _ hi
  exact ⟨g.allocated[i], List.getElem?_eq_getElem hi', h.rectangular _ (List.getElem_mem hi')⟩

namespace Decoder

/--
A field that is declared as a group but has none is no exception that could be met: it is never read,
and holds what it was declared with. A group keeps the rows in use in front of all others, so that
there are no more of them than rows at all is by construction; their shape and number are not.
-/
theorem slots_well_formed (set : TemplateSet) {d : Decoder} {ms : Messages}
    (h : Visited set d ms) :
    List.Forall₂ (fun t m => m.DeclaredBy t) set.templates ms ∧ ∀ m ∈ ms,
      (∀ f, Item.scalar f ∈ m.items →
        if f.decl.kind = .sequence then f = .fresh f.decl f.bit
        else f.HoldsKind ∧ f.strays = false) ∧
      ∀ g, Item.group g ∈ m.items →
        g.length.HoldsKind ∧ (∀ f ∈ g.dictionary, f.HoldsKind) ∧
        g.count ≤ 64 ∧ g.count ≤ g.allocated.length ∧
        (∀ row ∈ g.allocated, row.length = g.dictionary.length) ∧
        (∀ i < g.count, ∃ row, g.allocated[i]? = some row ∧ row.length = g.dictionary.length) ∧
        ∀ map place bytes, g.scan map place bytes = some (g.read map place bytes) := by
  refine ⟨h.keeps.declared, fun m hm => ⟨fun f hf => ?_, fun g hg => ?_⟩⟩
  · have hformed : f.Formed := h.formed m hm (.scalar f) hf
    split
    · next hrowless => exact (hformed.untouched hrowless).symm
    · next hkind =>
      have hkinded := hformed.kinded hkind
      exact ⟨hkinded.holdsKind, hkinded.strays_eq_false⟩
  · have hformed : g.Formed := h.formed m hm (.group g) hg
    refine ⟨hformed.length.holdsKind, fun f hf => (hformed.dictionary f hf).holdsKind,
      hformed.count_le, ?_, hformed.rectangular, fun i hi => hformed.exists_row hi,
      hformed.scan_eq⟩
    rw [Group.allocated, List.length_append]
    exact Nat.le_add_right _ _

/-- A slot that is reset while its second row is being read. -/
theorem slots_well_formed_quotes :
    let r := Decoder.fresh.decode quotes.messages [224, 135, 129, 130, 192, 138, 3, 245, 128]
    r.decoder.stage = .filling ⟨[96], by decide⟩ 0 ⟨2, .row 1 ⟨some ⟨[0], by decide⟩, 1⟩⟩ ∧
      Visited quotes r.decoder (r.messages.resetAt 0) ∧
      ∀ m ∈ r.messages.resetAt 0, ∀ g, Item.group g ∈ m.items → g.count ≤ 64 ∧
        ∀ map place bytes, g.scan map place bytes = some (g.read map place bytes) := by
  intro r
  have h : Visited quotes r.decoder (r.messages.resetAt 0) := .resetAt (.decode .fresh _) 0
  refine ⟨by decide, h, fun m hm g hg => ?_⟩
  obtain ⟨-, -, hcount, -, -, -, hscan⟩ := ((slots_well_formed quotes h).2 m hm).2 g hg
  exact ⟨hcount, hscan⟩

end Decoder

end MarketFeed
