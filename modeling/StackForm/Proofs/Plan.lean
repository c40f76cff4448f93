import StackForm.Proofs.Postorder

/-!
# `StackForm.Proofs.Plan`: what the sweep builds

The sweep of `StackForm.Folding` keeps waiting consumers and finished trees and moves
down one position at a time. This module says what it has built in the end, without
the sweep: `Block.plan_covers` holds of every block and every use table, also of one
that was made for another block.

* Every node of the plan is `Tree.Planned`: it stands at a position of the block, has
  that instruction's opcode, and its children are the decisions about that
  instruction's operands (`Child.Decided`). A decision depends only on what stands to
  its right in the same node: `Child.verdict?` reads the lowest position there
  (`Child.low`), where the sweep has one cursor for the whole block.
* The trees lie side by side without a gap from the first position to the last
  (`Tree.Covers`).

`Tree.postorder_planned` then gives the running order inside a tree, and
`Tree.Covers.postorder` that of the whole plan.
-/

set_option autoImplicit false

namespace StackForm

variable {κ : Type}

/-! ### The lowest position of a tree -/

mutual

/-- The lowest position in a tree, where its first instruction stands. -/
def Tree.low : Tree κ → Nat
  | .node pos _ cs => Child.low pos cs

/-- The lowest position among a consumer at `pos` and the trees in the places of its
operands `cs`. It is that of the leftmost tree, since trees lie side by side. -/
def Child.low (pos : Nat) : List (Child κ) → Nat
  | [] => pos
  | .imm _ :: cs => Child.low pos cs
  | .ref _ :: cs => Child.low pos cs
  | .nested t :: _ => t.low

end

/-! ### Decisions, node by node -/

/-- The decision about operand number `operand` of the consumer at `pos`, a reference to
`target`, when the operands to its right have become `cs`. -/
def Child.verdict? (uses : UseTable) (pos : Nat) (cs : List (Child Verdict))
    (operand target : Nat) : Option Verdict :=
  Consumer.verdict? uses (Child.low pos cs)
    { pos, opcode := default, pending := [], decided := cs } operand target

/-- The folding rule: a value is computed in place when no reference further right was
kept, it has no other use, and it stands right below what is in place already. -/
theorem Child.verdict?_eq_none_iff (uses : UseTable) (pos : Nat) (cs : List (Child Verdict))
    (operand target : Nat) :
    Child.verdict? uses pos cs operand target = none ↔
      target < pos ∧ cs.any Child.isRef = false ∧ uses.uses target = 1 ∧
        target + 1 = Child.low pos cs := by
  rw [Child.verdict?, Consumer.verdict?]
  constructor
  · intro h
    -- The tests of the rule in their order. Only the last branch gives no verdict.
    split at h
    · cases h
    · split at h
      · cases h
      · split at h
        · cases h
        · split at h
          · cases h
          · rename_i hpos hstop huses hlow
            exact ⟨Nat.lt_of_not_le hpos, by simpa [Consumer.stopped] using hstop,
              Decidable.not_not.mp huses, Decidable.not_not.mp hlow⟩
  · rintro ⟨hpos, hstop, huses, hlow⟩
    -- Said of `Consumer.stopped` as it stands, since the test decides that and not its body.
    have hgo : ¬ Consumer.stopped
        { pos, opcode := default, pending := [], decided := cs } = true := by
      simp [Consumer.stopped, hstop]
    rw [if_neg (Nat.not_le.mpr hpos), if_neg hgo, if_neg (Decidable.not_not.mpr huses),
      if_neg (Decidable.not_not.mpr hlow)]

/-- A decision against folding is about the position that was referred to. If it is no
complaint, that position is before the consumer. -/
theorem Child.target_of_verdict? {uses : UseTable} {pos : Nat} {cs : List (Child Verdict)}
    {operand target : Nat} {v : Verdict}
    (h : Child.verdict? uses pos cs operand target = some v) :
    v.target = target ∧ (v = .dangling operand target ∨ target < pos) := by
  simp only [Child.verdict?, Consumer.verdict?] at h
  split at h
  · cases h
    exact ⟨rfl, Or.inl rfl⟩
  · rename_i hpos
    have hlt : target < pos := by omega
    split at h
    · cases h
      exact ⟨rfl, Or.inr hlt⟩
    · split at h
      · cases h
        exact ⟨rfl, Or.inr hlt⟩
      · split at h
        · cases h
          exact ⟨rfl, Or.inr hlt⟩
        · cases h

/-- `Child.Decided uses pos k os cs`: the children `cs` are what the folding rule makes of
the operands `os` of the consumer at `pos`, of which the first is operand number `k`. -/
inductive Child.Decided (uses : UseTable) (pos : Nat) :
    Nat → List Operand → List (Child Verdict) → Prop where
  | nil (k : Nat) : Decided uses pos k [] []
  | imm {k : Nat} {os : List Operand} {cs : List (Child Verdict)} (v : Word)
      (rest : Decided uses pos (k + 1) os cs) :
      Decided uses pos k (.imm v :: os) (.imm v :: cs)
  | ref {k : Nat} {os : List Operand} {cs : List (Child Verdict)} {target : Nat} {v : Verdict}
      (rest : Decided uses pos (k + 1) os cs)
      (verdict : Child.verdict? uses pos cs k target = some v) :
      Decided uses pos k (.ref target :: os) (.ref v :: cs)
  | nested {k : Nat} {os : List Operand} {cs : List (Child Verdict)} {t : Tree Verdict}
      (rest : Decided uses pos (k + 1) os cs)
      (folds : Child.verdict? uses pos cs k t.pos = none) :
      Decided uses pos k (.ref t.pos :: os) (.nested t :: cs)

/-- A node that stands for the instruction at its position, with its operands decided. -/
def Tree.Planned (b : Block) (uses : UseTable) (t : Tree Verdict) : Prop :=
  ∃ i, b.instrs[t.pos]? = some i ∧ t.opcode = i.opcode ∧
    Child.Decided uses t.pos 0 i.operands t.children

/-- Trees that lie side by side from position `lo` to the end of the block, with every
node planned. -/
def Tree.Covers (b : Block) (uses : UseTable) : Nat → List (Tree Verdict) → Prop
  | lo, [] => lo = b.length
  | lo, t :: ts =>
      t.low = lo ∧ (∀ u ∈ t.nodes, u.Planned b uses) ∧ Tree.Covers b uses (t.pos + 1) ts

/-! ### The invariant of the sweep

All positions from `low` on are in place. The waiting consumers hold the lowest of them:
the innermost one waits for the tree of `low - 1`, and each further one for the tree of
the consumer before it, so the consumers form a chain that ends where the finished trees
begin. -/

namespace Consumer

/-- A consumer with the operands `pending` left to decide. What it holds reaches down to
`low`. -/
structure Open (b : Block) (uses : UseTable) (low : Nat) (c : Consumer)
    (pending : List Operand) : Prop where
  /-- The consumer stands for the instruction at its position, and the decisions so far are
  about that instruction's last operands. -/
  instr : ∃ i os, b.instrs[c.pos]? = some i ∧ c.opcode = i.opcode ∧
    i.operands = pending.reverse ++ os ∧ Child.Decided uses c.pos pending.length os c.decided
  low_eq : Child.low c.pos c.decided = low
  /-- The trees taken up so far are finished. -/
  nodes : ∀ u ∈ Child.nodesOf c.decided, u.Planned b uses

/-- A consumer that waits for the tree of the operand next to decide. -/
def Waits (b : Block) (uses : UseTable) (low : Nat) (c : Consumer) : Prop :=
  ∃ target, c.Open b uses low (.ref target :: c.pending) ∧
    Child.verdict? uses c.pos c.decided c.pending.length target = none

variable {b : Block} {uses : UseTable} {low : Nat}

/-- A consumer waits for the position right below all that is in place. -/
theorem Waits.target_eq {c : Consumer} (h : c.Waits b uses low) :
    ∃ target, c.Open b uses low (.ref target :: c.pending) ∧
      Child.verdict? uses c.pos c.decided c.pending.length target = none ∧ target + 1 = low := by
  obtain ⟨target, hopen, hnone⟩ := h
  have hrule := (Child.verdict?_eq_none_iff uses c.pos c.decided c.pending.length target).mp hnone
  exact ⟨target, hopen, hnone, by rw [hrule.2.2.2, hopen.low_eq]⟩

/-- At its start a consumer has all its operands to decide. -/
theorem open_ofInstr {pos : Nat} {i : Instr} (hi : b.instrs[pos]? = some i) :
    (ofInstr pos i).Open b uses pos (ofInstr pos i).pending where
  instr := ⟨i, [], hi, rfl, by simp [ofInstr], .nil _⟩
  low_eq := rfl
  nodes := by simp [ofInstr, Child.nodesOf]

/-- Taking up a constant. -/
theorem Open.take_imm {c : Consumer} {v : Word} {pending : List Operand}
    (h : c.Open b uses low (.imm v :: pending)) : (c.take (.imm v)).Open b uses low pending := by
  obtain ⟨⟨i, os, hi, hop, hos, hdec⟩, hlow, hnodes⟩ := h
  refine ⟨⟨i, .imm v :: os, hi, hop, ?_, .imm v hdec⟩, hlow, hnodes⟩
  rw [hos, List.reverse_cons, List.append_assoc]
  rfl

/-- Taking up a reference that does not fold. -/
theorem Open.take_ref {c : Consumer} {target : Nat} {v : Verdict} {pending : List Operand}
    (h : c.Open b uses low (.ref target :: pending))
    (hv : Child.verdict? uses c.pos c.decided pending.length target = some v) :
    (c.take (.ref v)).Open b uses low pending := by
  obtain ⟨⟨i, os, hi, hop, hos, hdec⟩, hlow, hnodes⟩ := h
  refine ⟨⟨i, .ref target :: os, hi, hop, ?_, .ref hdec hv⟩, hlow, hnodes⟩
  rw [hos, List.reverse_cons, List.append_assoc]
  rfl

/-- Taking up the tree that was waited for. It lies right below what the consumer held, so
its root is the awaited position, and what the consumer holds now reaches down to the
tree's own lowest position. -/
theorem Waits.take_nested {c : Consumer} {t : Tree Verdict} (h : c.Waits b uses (t.pos + 1))
    (hnodes : ∀ u ∈ t.nodes, u.Planned b uses) :
    (c.take (.nested t)).Open b uses t.low c.pending := by
  obtain ⟨target, hopen, hnone, htarget⟩ := h.target_eq
  obtain rfl : target = t.pos := by omega
  obtain ⟨⟨i, os, hi, hop, hos, hdec⟩, -, hdone⟩ := hopen
  refine ⟨⟨i, .ref t.pos :: os, hi, hop, ?_, .nested hdec hnone⟩, rfl, ?_⟩
  · rw [hos, List.reverse_cons, List.append_assoc]
    rfl
  · intro u hu
    rcases List.mem_append.mp hu with hu | hu
    · exact hnodes u hu
    · exact hdone u hu

/-- What an advance leaves: a finished tree in the consumer's place, or the consumer as it
waits. Induction over the operands to decide. -/
theorem advanceWith_spec (c : Consumer) (pending : List Operand)
    (h : c.Open b uses low pending) :
    match c.advanceWith uses low pending with
    | .inl t => t.pos = c.pos ∧ t.low = low ∧ ∀ u ∈ t.nodes, u.Planned b uses
    | .inr c' => c'.pos = c.pos ∧ c'.Waits b uses low := by
  induction pending generalizing c with
  | nil =>
      -- The decisions made are about all operands, so the tree's root is planned.
      obtain ⟨⟨i, os, hi, hop, hos, hdec⟩, hlow, hnodes⟩ := h
      refine ⟨rfl, hlow, ?_⟩
      intro u hu
      rcases List.mem_append.mp hu with hu | hu
      · exact hnodes u hu
      · obtain rfl := List.mem_singleton.mp hu
        refine ⟨i, hi, hop, ?_⟩
        rw [hos]
        exact hdec
  | cons o pending ih =>
      cases o with
      | imm v => exact ih (c.take (.imm v)) h.take_imm
      | ref target =>
          -- The cursor of the sweep is the lowest position that the consumer holds.
          have hverdict : c.verdict? uses low pending.length target
              = Child.verdict? uses c.pos c.decided pending.length target := by
            rw [← h.low_eq]
            rfl
          simp only [advanceWith]
          rw [hverdict]
          cases hv : Child.verdict? uses c.pos c.decided pending.length target with
          | some v => exact ih (c.take (.ref v)) (h.take_ref hv)
          | none => exact ⟨rfl, target, ⟨h.instr, h.low_eq, h.nodes⟩, hv⟩

end Consumer

namespace Sweep

variable {b : Block} {uses : UseTable}

/-- Waiting consumers that reach from `low` up to `top`, each waiting for the one before
it. -/
def Chain (b : Block) (uses : UseTable) : Nat → List Consumer → Nat → Prop
  | low, [], top => low = top
  | low, c :: ws, top => c.Waits b uses low ∧ Chain b uses (c.pos + 1) ws top

/-- A sweep that has come down to position `low`. -/
def Reached (b : Block) (uses : UseTable) (low : Nat) (s : Sweep) : Prop :=
  ∃ top, Chain b uses low s.waiting top ∧ Tree.Covers b uses top s.trees

/-- Settling the innermost consumer keeps all that is in place. Induction over the
consumers further out, which are met as long as trees are finished. -/
theorem reached_settle {low top : Nat} {trees : List (Tree Verdict)}
    (htrees : Tree.Covers b uses top trees) (ws : List Consumer) (c : Consumer)
    (hopen : c.Open b uses low c.pending) (hchain : Chain b uses (c.pos + 1) ws top) :
    Reached b uses low (settle uses low trees c ws) := by
  induction ws generalizing c with
  | nil =>
      obtain rfl : c.pos + 1 = top := hchain
      have hspec := Consumer.advanceWith_spec c c.pending hopen
      rw [settle, Consumer.advance]
      cases hadv : c.advanceWith uses low c.pending with
      | inl t =>
          -- No consumer waits for this tree, so it is a new root.
          simp only [hadv] at hspec
          obtain ⟨hpos, hlow, hnodes⟩ := hspec
          exact ⟨low, rfl, hlow, hnodes, by rw [hpos]; exact htrees⟩
      | inr c' =>
          simp only [hadv] at hspec
          obtain ⟨hpos, hwaits⟩ := hspec
          exact ⟨c.pos + 1, ⟨hwaits, by rw [hpos]; rfl⟩, htrees⟩
  | cons outer ws ih =>
      obtain ⟨houter, hrest⟩ := hchain
      have hspec := Consumer.advanceWith_spec c c.pending hopen
      rw [settle, Consumer.advance]
      cases hadv : c.advanceWith uses low c.pending with
      | inl t =>
          -- The next consumer out waits for this tree, and is settled in turn.
          simp only [hadv] at hspec
          obtain ⟨hpos, rfl, hnodes⟩ := hspec
          rw [← hpos] at houter
          exact ih (outer.take (.nested t)) (houter.take_nested hnodes) hrest
      | inr c' =>
          simp only [hadv] at hspec
          obtain ⟨hpos, hwaits⟩ := hspec
          exact ⟨top, ⟨hwaits, by rw [hpos]; exact ⟨houter, hrest⟩⟩, htrees⟩

/-- One step of the sweep moves the invariant down by one position. -/
theorem reached_step {low : Nat} {s : Sweep} {i : Instr} (hi : b.instrs[low]? = some i)
    (h : Reached b uses (low + 1) s) : Reached b uses low (s.step uses low i) := by
  obtain ⟨top, hchain, htrees⟩ := h
  exact reached_settle htrees s.waiting (.ofInstr low i) (Consumer.open_ofInstr hi) hchain

/-- A sweep over the last instructions of a block reaches the first of them. -/
theorem reached_run (before after : List Instr) (h : b.instrs = before ++ after) :
    Reached b uses before.length (run uses (after.zipIdx before.length)) := by
  induction after generalizing before with
  | nil =>
      have hlen : before.length = b.length := by
        rw [Block.length, h, List.append_nil]
      exact ⟨before.length, rfl, hlen⟩
  | cons i after ih =>
      have hrest := ih (before ++ [i]) (by rw [h, List.append_assoc]; rfl)
      rw [List.length_append, List.length_singleton] at hrest
      have hi : b.instrs[before.length]? = some i := by rw [h]; simp
      rw [List.zipIdx_cons]
      exact reached_step hi hrest

end Sweep

/-- The plan of a block covers the block: its trees lie side by side from the first
position to the last, and every node of theirs is decided by the folding rule. At
position zero nothing can be waiting, because there is no position below. -/
theorem Block.plan_covers (b : Block) (uses : UseTable) :
    Tree.Covers b uses 0 (b.plan uses) := by
  obtain ⟨top, hchain, htrees⟩ := @Sweep.reached_run b uses [] b.instrs rfl
  change Sweep.Chain b uses 0 (Sweep.run uses b.instrs.zipIdx).waiting top at hchain
  cases hw : (Sweep.run uses b.instrs.zipIdx).waiting with
  | nil =>
      rw [hw] at hchain
      obtain rfl : 0 = top := hchain
      exact htrees
  | cons c ws =>
      rw [hw] at hchain
      obtain ⟨target, -, -, htarget⟩ := hchain.1.target_eq
      omega

/-! ### Running order -/

mutual

/-- A planned tree runs the positions from its lowest one to its root, in order. -/
theorem Tree.postorder_planned {b : Block} {uses : UseTable} :
    (t : Tree Verdict) → (∀ u ∈ t.nodes, u.Planned b uses) →
      t.low ≤ t.pos ∧ t.postorder = List.range' t.low (t.pos + 1 - t.low)
  | .node pos op cs, h => by
      obtain ⟨i, -, -, hdec⟩ := h (.node pos op cs) (Tree.self_mem_nodes _)
      have hnodes : ∀ u ∈ Child.nodesOf cs, u.Planned b uses := fun u hu =>
        h u (by rw [Tree.nodes]; exact List.mem_append_left _ hu)
      have hcs := Child.postorder_decided cs hdec hnodes
      refine ⟨hcs.1, ?_⟩
      rw [Tree.postorder, Tree.nodes, List.map_append]
      exact hcs.2

/-- Companion: the positions in the places of a consumer's last operands, and then its own.
A tree that was folded ends right below what stands to its right, which is the one case
where the run of positions grows. -/
theorem Child.postorder_decided {b : Block} {uses : UseTable} {pos : Nat} :
    (cs : List (Child Verdict)) → {k : Nat} → {os : List Operand} →
      Child.Decided uses pos k os cs → (∀ u ∈ Child.nodesOf cs, u.Planned b uses) →
      Child.low pos cs ≤ pos ∧ (Child.nodesOf cs).map Tree.pos ++ [pos]
        = List.range' (Child.low pos cs) (pos + 1 - Child.low pos cs)
  | [], _, _, _, _ => by
      refine ⟨Nat.le_refl pos, ?_⟩
      rw [Child.low, Nat.add_sub_cancel_left]
      rfl
  | .imm _ :: cs, _, _, .imm _ rest, h => Child.postorder_decided cs rest h
  | .ref _ :: cs, _, _, .ref rest _, h => Child.postorder_decided cs rest h
  | .nested t :: cs, k, _, .nested rest folds, h => by
      have ht := Tree.postorder_planned t fun u hu =>
        h u (List.mem_append_left _ hu)
      have hcs := Child.postorder_decided cs rest fun u hu =>
        h u (List.mem_append_right _ hu)
      have hadj := ((Child.verdict?_eq_none_iff uses pos cs k t.pos).mp folds).2.2.2
      -- What stands to the right of the tree begins where the tree ends.
      rw [← hadj] at hcs
      refine ⟨by rw [Child.low]; omega, ?_⟩
      have hsplit : pos + 1 - t.low = (t.pos + 1 - t.low) + (pos + 1 - (t.pos + 1)) := by omega
      have hmid : t.low + 1 * (t.pos + 1 - t.low) = t.pos + 1 := by omega
      rw [Child.nodesOf, Child.nodes, List.map_append, List.append_assoc, hcs.2, Child.low,
        hsplit, ← List.range'_append, hmid, ← ht.2]
      rfl

end

/-- The trees of a cover, one after the other, run every position from the first one on,
in order. -/
theorem Tree.Covers.postorder {b : Block} {uses : UseTable} :
    ∀ {ts : List (Tree Verdict)} {lo : Nat}, Tree.Covers b uses lo ts →
      lo ≤ b.length ∧ ts.flatMap Tree.postorder = List.range' lo (b.length - lo) := by
  intro ts
  induction ts with
  | nil =>
      rintro lo rfl
      simp
  | cons t ts ih =>
      rintro lo ⟨rfl, hnodes, hrest⟩
      obtain ⟨hle, hts⟩ := ih hrest
      obtain ⟨hlow, ht⟩ := Tree.postorder_planned t hnodes
      refine ⟨by omega, ?_⟩
      have hsplit : b.length - t.low = (t.pos + 1 - t.low) + (b.length - (t.pos + 1)) := by omega
      have hmid : t.low + 1 * (t.pos + 1 - t.low) = t.pos + 1 := by omega
      rw [List.flatMap_cons, ht, hts, hsplit, ← List.range'_append, hmid]

/-- Every node of a plan is planned. -/
theorem Tree.Covers.planned {b : Block} {uses : UseTable} :
    ∀ {ts : List (Tree Verdict)} {lo : Nat}, Tree.Covers b uses lo ts →
      ∀ u ∈ ts.flatMap Tree.nodes, u.Planned b uses := by
  intro ts
  induction ts with
  | nil =>
      intro lo _ u hu
      simp at hu
  | cons t ts ih =>
      rintro lo ⟨-, hnodes, hrest⟩ u hu
      rcases List.mem_append.mp hu with hu | hu
      · exact hnodes u hu
      · exact ih hrest u hu

/-- Each tree of a cover runs a stretch of positions that ends at its root. -/
theorem Tree.Covers.stretch {b : Block} {uses : UseTable} {ts : List (Tree Verdict)} {lo : Nat}
    (h : Tree.Covers b uses lo ts) :
    ∀ t ∈ ts, t.low ≤ t.pos ∧ t.postorder = List.range' t.low (t.pos + 1 - t.low) := by
  intro t ht
  refine Tree.postorder_planned t fun u hu => h.planned u ?_
  exact List.mem_flatMap.mpr ⟨t, ht, hu⟩

/-- In a cover a tree ends before the next one begins. -/
theorem Tree.Covers.apart {b : Block} {uses : UseTable} {ts : List (Tree Verdict)} {lo : Nat}
    (h : Tree.Covers b uses lo ts) : ts.Pairwise fun t u => t.pos < u.low := by
  -- The induction carries that no tree reaches below the start of the cover.
  suffices hboth : (ts.Pairwise fun t u => t.pos < u.low) ∧ ∀ u ∈ ts, lo ≤ u.low from hboth.1
  induction ts generalizing lo with
  | nil => simp
  | cons t ts ih =>
      obtain ⟨rfl, hnodes, hrest⟩ := h
      obtain ⟨hpairs, hbound⟩ := ih hrest
      obtain ⟨hlow, -⟩ := Tree.postorder_planned t hnodes
      refine ⟨List.pairwise_cons.mpr ⟨hbound, hpairs⟩, ?_⟩
      intro u hu
      rcases List.mem_cons.mp hu with rfl | hu
      · exact Nat.le_refl _
      · have := hbound u hu
        omega

/-- Of two different trees of a cover, one ends before the other begins. -/
theorem Tree.Covers.separate {b : Block} {uses : UseTable} {ts : List (Tree Verdict)} {lo : Nat}
    (h : Tree.Covers b uses lo ts) {t u : Tree Verdict} (ht : t ∈ ts) (hu : u ∈ ts) :
    t = u ∨ t.pos < u.low ∨ u.pos < t.low := by
  have hpairs := h.apart
  clear h
  induction hpairs with
  | nil => cases ht
  | cons hhead _ ih =>
      rcases List.mem_cons.mp ht with rfl | ht'
      · rcases List.mem_cons.mp hu with rfl | hu'
        · exact Or.inl rfl
        · exact Or.inr (Or.inl (hhead u hu'))
      · rcases List.mem_cons.mp hu with rfl | hu'
        · exact Or.inr (Or.inr (hhead t ht'))
        · exact ih ht' hu'

/-- The nodes below the root of a tree of a cover fill the positions from its lowest one up
to its root. -/
theorem Tree.Covers.below_root {b : Block} {uses : UseTable} {ts : List (Tree Verdict)} {lo : Nat}
    (h : Tree.Covers b uses lo ts) {t : Tree Verdict} (ht : t ∈ ts) :
    (Child.nodesOf t.children).map Tree.pos = List.range' t.low (t.pos - t.low) := by
  obtain ⟨hlow, hpost⟩ := h.stretch t ht
  have hsucc : t.pos + 1 - t.low = (t.pos - t.low) + 1 := by omega
  have hlast : t.low + 1 * (t.pos - t.low) = t.pos := by omega
  rw [hsucc, List.range'_concat, hlast] at hpost
  cases t with
  | node pos op cs =>
      rw [Tree.postorder, Tree.nodes, List.map_append] at hpost
      exact List.append_cancel_right hpost

/-- The plan runs every position of the block once, in order. -/
theorem Block.plan_postorder (b : Block) (uses : UseTable) :
    (b.plan uses).flatMap Tree.postorder = List.range b.length := by
  rw [(b.plan_covers uses).postorder.2, List.range_eq_range', Nat.sub_zero]

/-- The nodes of a plan stand for the instructions of the block one by one: what can be
read off a planned node alike from its instruction gives the same list from the nodes in
running order as from the block. -/
theorem Block.map_plan_nodes {β : Type} (b : Block) (uses : UseTable) (ofNode : Tree Verdict → β)
    (ofInstr : Instr → β)
    (hread : ∀ u i, u.opcode = i.opcode → Child.Decided uses u.pos 0 i.operands u.children →
      ofNode u = ofInstr i) :
    ((b.plan uses).flatMap Tree.nodes).map ofNode = b.instrs.map ofInstr := by
  have hpos : ((b.plan uses).flatMap Tree.nodes).map Tree.pos = List.range b.length := by
    rw [List.map_flatMap]
    exact b.plan_postorder uses
  have hlen : ((b.plan uses).flatMap Tree.nodes).length = b.length := by
    rw [← List.length_map (f := Tree.pos), hpos, List.length_range]
  refine List.ext_getElem ?_ ?_
  · rw [List.length_map, List.length_map, hlen]
    rfl
  · intro k hk hk'
    rw [List.getElem_map, List.getElem_map]
    rw [List.length_map] at hk hk'
    -- Running order is position order: the node with index `k` stands at position `k`.
    have hat : ((b.plan uses).flatMap Tree.nodes)[k].pos = k := by
      have hmap : (((b.plan uses).flatMap Tree.nodes).map Tree.pos)[k]? = some k := by
        rw [hpos, List.getElem?_range (by omega)]
      rw [List.getElem?_map, List.getElem?_eq_getElem hk] at hmap
      simpa using hmap
    obtain ⟨i, hi, hop, hdec⟩ := (b.plan_covers uses).planned _ (List.getElem_mem hk)
    rw [hat, List.getElem?_eq_getElem hk'] at hi
    cases hi
    exact hread _ _ hop hdec

end StackForm
