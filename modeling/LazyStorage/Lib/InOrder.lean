import Mathlib.Data.List.Basic
import Mathlib.Order.Nat

/-! # Numbered items over a link that keeps their order

A sender numbers what it makes and keeps it pending until it is told that it has
been settled up to a number. What is pending goes on a link, in batches or
singly; the receiver keeps the last number it took, takes nothing at or below
it, and may hold singles back until it opens a batch. If a single is put on the
link only behind every pending item it could overtake, then no item is passed by
before it is settled, and no answer speaks for an item that is not.
-/
namespace LazyStorage.Lib

/-- What a link carries: some items at once, or one. -/
inductive Item
  | batch (ns : List ℕ)
  | single (n : ℕ)

namespace Item

def numbers : Item → List ℕ
  | .batch ns => ns
  | .single n => [n]

end Item

/-- A sender, a link each way and a receiver. `back` holds the answers under way: each says that
everything up to its number is settled. -/
structure Line where
  made : ℕ
  pending : List ℕ
  link : List Item
  back : List ℕ
  last : ℕ
  held : Bool
  settled : ℕ → Prop

/-- Every batch on the link has the item, or is followed by it singly. -/
def Brought (n : ℕ) : List Item → Prop
  | [] => True
  | .batch ns :: link => (n ∈ ns ∨ .single n ∈ link) ∧ Brought n link
  | .single _ :: link => Brought n link

/-- Whatever comes behind the link cannot overtake the item: it is singly on the link or held back
with what is, and comes with every batch that ends the hold. -/
def Follows (held : Bool) (link : List Item) (n : ℕ) : Prop :=
  (held = true ∨ .single n ∈ link) ∧ Brought n link

/-- The items that may still come: pending, or carried by the link. -/
def Waiting (pending : List ℕ) (link : List Item) (n : ℕ) : Prop :=
  n ∈ pending ∨ ∃ item ∈ link, n ∈ item.numbers

structure InOrder (l : Line) : Prop where
  sorted : l.pending.Pairwise (· < ·)
  made : ∀ n, Waiting l.pending l.link n → n ≤ l.made
  back : ∀ b ∈ l.back, b ≤ l.made
  last : l.last ≤ l.made
  passed : ∀ n, Waiting l.pending l.link n → n ≤ l.last → l.settled n
  answered : ∀ b ∈ l.back, ∀ n ∈ l.pending, n ≤ b → l.settled n
  batch : ∀ pre ns post, l.link = pre ++ .batch ns :: post → ns.Pairwise (· < ·) ∧
    ∀ u ∈ ns, ∀ n, Waiting l.pending post n → n < u → n ∈ ns
  single : ∀ pre s post, l.link = pre ++ .single s :: post →
    ∀ n, Waiting l.pending post n → n < s → ¬ l.settled n → Follows l.held pre n

section Split

variable {pending pending' : List ℕ} {link pre post : List Item} {x y : Item} {n : ℕ}

/-- Where an item stands in a link with one more at its end: before, or it is that one. -/
theorem split_concat (h : link ++ [y] = pre ++ x :: post) :
    (∃ post', post = post' ++ [y] ∧ link = pre ++ x :: post') ∨ (x = y ∧ post = [] ∧ pre = link) := by
  rcases List.eq_nil_or_concat post with rfl | ⟨post', z, rfl⟩
  · obtain ⟨rfl, hx⟩ := List.append_inj' h rfl
    exact .inr ⟨(List.singleton_inj.mp hx).symm, rfl, rfl⟩
  · rw [List.concat_eq_append, ← List.cons_append, ← List.append_assoc] at h
    obtain ⟨rfl, hz⟩ := List.append_inj' h rfl
    exact .inl ⟨post', by rw [List.singleton_inj.mp hz, List.concat_eq_append], rfl⟩

theorem Waiting.mono (h : Waiting pending' link n) (hsub : ∀ n ∈ pending', n ∈ pending) :
    Waiting pending link n := h.imp_left (hsub n)

theorem Waiting.cons (h : Waiting pending link n) : Waiting pending (x :: link) n :=
  h.imp_right fun ⟨item, hmem, hn⟩ => ⟨item, List.mem_cons_of_mem _ hmem, hn⟩

/-- What one more item at the end of the link brings was pending. -/
theorem Waiting.of_concat (h : Waiting pending (link ++ [y]) n)
    (hy : ∀ n ∈ y.numbers, n ∈ pending) : Waiting pending link n := by
  rcases h with h | ⟨item, hmem, hn⟩
  · exact .inl h
  · rcases List.mem_append.mp hmem with hmem | hmem
    · exact .inr ⟨item, hmem, hn⟩
    · obtain rfl := List.mem_singleton.mp hmem
      exact .inl (hy n hn)

end Split

section Follow

variable {held : Bool} {link post : List Item} {n : ℕ}

theorem brought_append (h : Brought n link ∨ .single n ∈ post) (hpost : Brought n post) :
    Brought n (link ++ post) := by
  induction link with
  | nil => exact hpost
  | cons item link ih =>
    cases item with
    | batch ns =>
      rcases h with ⟨hns, hlink⟩ | hmem
      · exact ⟨hns.imp_right (List.mem_append_left _), ih (.inl hlink)⟩
      · exact ⟨.inr (List.mem_append_right _ hmem), ih (.inr hmem)⟩
    | single m => exact ih (h.imp_left fun hlink => hlink)

/-- What the link cannot overtake, a longer link of singles cannot. -/
theorem Follows.concat (h : Follows held link n) (m : ℕ) : Follows held (link ++ [.single m]) n :=
  ⟨h.1.imp_right (List.mem_append_left _), brought_append (.inl h.2) trivial⟩

theorem follows_self (n : ℕ) : Follows held (link ++ [.single n]) n :=
  ⟨.inr (by simp), brought_append (.inr (by simp)) trivial⟩

end Follow

namespace InOrder

variable {l : Line}

/-- A new item, numbered above all others. -/
theorem make (h : InOrder l) :
    InOrder { l with made := l.made + 1, pending := l.pending ++ [l.made + 1] } := by
  have hnew : ∀ link n, Waiting (l.pending ++ [l.made + 1]) link n →
      Waiting l.pending link n ∨ n = l.made + 1 := by
    rintro link n (hn | hn)
    · rcases List.mem_append.mp hn with hn | hn
      · exact .inl (.inl hn)
      · exact .inr (List.mem_singleton.mp hn)
    · exact .inl (.inr hn)
  constructor
  · refine List.pairwise_append.mpr ⟨h.sorted, List.pairwise_singleton _ _, ?_⟩
    intro n hn m hm
    obtain rfl := List.mem_singleton.mp hm
    exact Nat.lt_succ_of_le (h.made n (.inl hn))
  · intro n hn
    rcases hnew _ n hn with hn | rfl
    · exact (h.made n hn).trans (Nat.le_succ _)
    · exact le_rfl
  · intro b hb
    exact (h.back b hb).trans (Nat.le_succ _)
  · exact h.last.trans (Nat.le_succ _)
  · intro n hn hle
    rcases hnew _ n hn with hn | rfl
    · exact h.passed n hn hle
    · have hlast := h.last
      dsimp only at hle
      omega
  · intro b hb n hn hle
    rcases hnew [] n (.inl hn) with hn | rfl
    · exact h.answered b hb n (hn.resolve_right (by simp)) hle
    · have hback := h.back b hb
      omega
  · intro pre ns post hlink
    obtain ⟨hsorted, hclosed⟩ := h.batch pre ns post hlink
    refine ⟨hsorted, fun u hu n hn hlt => ?_⟩
    rcases hnew _ n hn with hn | rfl
    · exact hclosed u hu n hn hlt
    · have hu' := h.made u (.inr ⟨.batch ns, by rw [hlink]; simp, hu⟩)
      omega
  · intro pre s post hlink n hn hlt hopen
    rcases hnew _ n hn with hn | rfl
    · exact h.single pre s post hlink n hn hlt hopen
    · have hs := h.made s (.inr ⟨.single s, by rw [hlink]; simp, by simp [Item.numbers]⟩)
      omega

/-- Pending items may be given up, answers lost. -/
theorem shrink (h : InOrder l) {pending : List ℕ} {back : List ℕ} (hp : pending.Sublist l.pending)
    (hb : ∀ b ∈ back, b ∈ l.back) : InOrder { l with pending, back } where
  sorted := h.sorted.sublist hp
  made n hn := h.made n (hn.mono hp.subset)
  back b hmem := h.back b (hb b hmem)
  last := h.last
  passed n hn hle := h.passed n (hn.mono hp.subset) hle
  answered b hmem n hn hle := h.answered b (hb b hmem) n (hp.subset hn) hle
  batch pre ns post hlink := ⟨(h.batch pre ns post hlink).1, fun u hu n hn hlt =>
    (h.batch pre ns post hlink).2 u hu n (hn.mono hp.subset) hlt⟩
  single pre s post hlink n hn hlt hopen :=
    h.single pre s post hlink n (hn.mono hp.subset) hlt hopen

/-- The link and the answers under way lost. -/
theorem cut (h : InOrder l) (held : Bool) : InOrder { l with link := [], back := [], held } where
  sorted := h.sorted
  made n hn := h.made n (hn.imp_right (by simp))
  back := by simp
  last := h.last
  passed n hn hle := h.passed n (hn.imp_right (by simp)) hle
  answered := by simp
  batch := by simp
  single := by simp

/-- The receiver holds back what comes singly. -/
theorem raise (h : InOrder l) : InOrder { l with held := true } where
  sorted := h.sorted
  made := h.made
  back := h.back
  last := h.last
  passed := h.passed
  answered := h.answered
  batch := h.batch
  single pre s post hlink n hn hlt hopen :=
    ⟨.inl rfl, (h.single pre s post hlink n hn hlt hopen).2⟩

/-- The first pending items put on the link at once. -/
theorem say (h : InOrder l) {ns : List ℕ} (hns : ns <+: l.pending) :
    InOrder { l with link := l.link ++ [.batch ns] } where
  sorted := h.sorted
  made n hn := h.made n (hn.of_concat fun _ hm => hns.subset hm)
  back := h.back
  last := h.last
  passed n hn hle := h.passed n (hn.of_concat fun _ hm => hns.subset hm) hle
  answered := h.answered
  batch pre ns' post hlink := by
    rcases split_concat hlink with ⟨post', rfl, hat⟩ | ⟨heq, rfl, rfl⟩
    · obtain ⟨hsorted, hclosed⟩ := h.batch pre ns' post' hat
      exact ⟨hsorted, fun u hu n hn hlt =>
        hclosed u hu n (hn.of_concat fun _ hm => hns.subset hm) hlt⟩
    · obtain rfl := Item.batch.inj heq
      refine ⟨h.sorted.sublist hns.sublist, fun u hu n hn hlt => ?_⟩
      obtain ⟨rest, hrest⟩ := hns
      have hn : n ∈ l.pending := hn.resolve_right (by simp)
      have hsorted := h.sorted
      rw [← hrest, List.pairwise_append] at hsorted
      rw [← hrest, List.mem_append] at hn
      rcases hn with hn | hn
      · exact hn
      · have hbehind := hsorted.2.2 u hu n hn
        omega
  single pre s post hlink n hn hlt hopen := by
    rcases split_concat hlink with ⟨post', rfl, hat⟩ | ⟨heq, rfl, rfl⟩
    · exact h.single pre s post' hat n (hn.of_concat fun _ hm => hns.subset hm) hlt hopen
    · cases heq

/-- A pending item put on the link singly, behind every one it could overtake. -/
theorem send (h : InOrder l) {s : ℕ} (hs : s ∈ l.pending)
    (hclear : ∀ n ∈ l.pending, n < s → ¬ l.settled n → Follows l.held l.link n) :
    InOrder { l with link := l.link ++ [.single s] } := by
  have hsub : ∀ n ∈ (Item.single s).numbers, n ∈ l.pending := fun n hn =>
    List.mem_singleton.mp hn ▸ hs
  constructor
  · exact h.sorted
  · exact fun n hn => h.made n (hn.of_concat hsub)
  · exact h.back
  · exact h.last
  · exact fun n hn hle => h.passed n (hn.of_concat hsub) hle
  · exact h.answered
  · intro pre ns post hlink
    rcases split_concat hlink with ⟨post', rfl, hat⟩ | ⟨heq, rfl, rfl⟩
    · obtain ⟨hsorted, hclosed⟩ := h.batch pre ns post' hat
      exact ⟨hsorted, fun u hu n hn hlt => hclosed u hu n (hn.of_concat hsub) hlt⟩
    · cases heq
  · intro pre s' post hlink n hn hlt hopen
    rcases split_concat hlink with ⟨post', rfl, hat⟩ | ⟨heq, rfl, rfl⟩
    · exact h.single pre s' post' hat n (hn.of_concat hsub) hlt hopen
    · obtain rfl := Item.single.inj heq
      exact hclear n (hn.resolve_right (by simp)) hlt hopen

/-- Pending items put on the link singly, in order: each that one of them could overtake is among
them, or cannot be overtaken. -/
theorem sendAll (h : InOrder l) {ms : List ℕ} (hsorted : ms.Pairwise (· < ·))
    (hms : ∀ m ∈ ms, m ∈ l.pending)
    (hclear : ∀ n ∈ l.pending, ¬ l.settled n → (∃ m ∈ ms, n < m) → n ∈ ms ∨ Follows l.held l.link n) :
    InOrder { l with link := l.link ++ ms.map Item.single } := by
  induction ms generalizing l with
  | nil => simpa using h
  | cons m ms ih =>
    obtain ⟨hfirst, hrest⟩ := List.pairwise_cons.mp hsorted
    have hsent := h.send (hms m (by simp)) fun n hn hlt hopen => by
      rcases hclear n hn hopen ⟨m, by simp, hlt⟩ with hmem | hfollows
      · rcases List.mem_cons.mp hmem with rfl | hmem
        · omega
        · have hbehind := hfirst n hmem
          omega
      · exact hfollows
    have hall := ih hsent hrest (fun x hx => hms x (List.mem_cons_of_mem _ hx)) fun n hn hopen hex => by
      obtain ⟨x, hx, hlt⟩ := hex
      rcases hclear n hn hopen ⟨x, List.mem_cons_of_mem _ hx, hlt⟩ with hmem | hfollows
      · rcases List.mem_cons.mp hmem with rfl | hmem
        · exact .inr (follows_self n)
        · exact .inl hmem
      · exact .inr (hfollows.concat m)
    simpa using hall

section Receive

variable {rest : List Item} {ns : List ℕ} {s : ℕ}

/-- More is settled than before. -/
theorem settle (h : InOrder l) (settled : ℕ → Prop) (hs : ∀ n, l.settled n → settled n) :
    InOrder { l with settled } where
  sorted := h.sorted
  made := h.made
  back := h.back
  last := h.last
  passed n hn hle := hs n (h.passed n hn hle)
  answered b hb n hn hle := hs n (h.answered b hb n hn hle)
  batch := h.batch
  single pre s post hlink n hn hlt hopen := h.single pre s post hlink n hn hlt (hopen ∘ hs n)

/-- The receiver forgets how far it was. -/
theorem forget (h : InOrder l) {last : ℕ} (hle : last ≤ l.last) : InOrder { l with last } where
  sorted := h.sorted
  made := h.made
  back := h.back
  last := hle.trans h.last
  passed n hn hn' := h.passed n hn (hn'.trans hle)
  answered := h.answered
  batch := h.batch
  single := h.single

/-- An answer that speaks for what the receiver took. -/
theorem answer (h : InOrder l) {b : ℕ} (hb : b ≤ l.last) :
    InOrder { l with back := l.back ++ [b] } where
  sorted := h.sorted
  made := h.made
  back x hx := by
    rcases List.mem_append.mp hx with hx | hx
    · exact h.back x hx
    · exact List.mem_singleton.mp hx ▸ hb.trans h.last
  last := h.last
  passed := h.passed
  answered x hx n hn hle := by
    rcases List.mem_append.mp hx with hx | hx
    · exact h.answered x hx n hn hle
    · obtain rfl := List.mem_singleton.mp hx
      exact h.passed n (.inl hn) (hle.trans hb)
  batch := h.batch
  single := h.single

/-- A batch the receiver does not open. -/
theorem skip (h : InOrder l) (hlink : l.link = .batch ns :: rest) : InOrder { l with link := rest } where
  sorted := h.sorted
  made n hn := h.made n (hlink ▸ hn.cons)
  back := h.back
  last := h.last
  passed n hn hle := h.passed n (hlink ▸ hn.cons) hle
  answered := h.answered
  batch pre ns' post hat := h.batch (.batch ns :: pre) ns' post (by rw [hlink]; exact congrArg _ hat)
  single pre s post hat n hn hlt hopen := by
    have hfollows := h.single (.batch ns :: pre) s post (by rw [hlink]; exact congrArg _ hat) n hn hlt hopen
    exact ⟨hfollows.1.imp_right (by simp), hfollows.2.2⟩

/-- A single held back: so is what comes behind it. -/
theorem hold (h : InOrder l) (hlink : l.link = .single s :: rest) :
    InOrder { l with link := rest, held := true } where
  sorted := h.sorted
  made n hn := h.made n (hlink ▸ hn.cons)
  back := h.back
  last := h.last
  passed n hn hle := h.passed n (hlink ▸ hn.cons) hle
  answered := h.answered
  batch pre ns' post hat := h.batch (.single s :: pre) ns' post (by rw [hlink]; exact congrArg _ hat)
  single pre s' post hat n hn hlt hopen :=
    ⟨.inl rfl, (h.single (.single s :: pre) s' post (by rw [hlink]; exact congrArg _ hat)
      n hn hlt hopen).2⟩

/-- A single that is settled leaves the link. -/
theorem pop (h : InOrder l) (hlink : l.link = .single s :: rest) (hs : l.settled s) :
    InOrder { l with link := rest } where
  sorted := h.sorted
  made n hn := h.made n (hlink ▸ hn.cons)
  back := h.back
  last := h.last
  passed n hn hle := h.passed n (hlink ▸ hn.cons) hle
  answered := h.answered
  batch pre ns' post hat := h.batch (.single s :: pre) ns' post (by rw [hlink]; exact congrArg _ hat)
  single pre s' post hat n hn hlt hopen := by
    have hfollows := h.single (.single s :: pre) s' post (by rw [hlink]; exact congrArg _ hat) n hn hlt hopen
    refine ⟨hfollows.1.imp_right fun hmem => ?_, hfollows.2⟩
    rcases List.mem_cons.mp hmem with heq | hmem
    · obtain rfl := Item.single.inj heq
      exact absurd hs hopen
    · exact hmem

/-- The first single of a link that is not held, taken: nothing pending is passed by. -/
theorem take (h : InOrder l) (hlink : l.link = .single s :: rest) (hheld : l.held = false)
    (hlast : l.last < s) :
    InOrder { l with link := rest, last := s, settled := fun n => n = s ∨ l.settled n } := by
  have hs : s ≤ l.made := h.made s (.inr ⟨.single s, by rw [hlink]; simp, by simp [Item.numbers]⟩)
  have hpop : InOrder { l with link := rest, settled := fun n => n = s ∨ l.settled n } :=
    (h.settle (fun n => n = s ∨ l.settled n) fun _ hn => .inr hn).pop hlink (.inl rfl)
  refine { hpop with last := hs, passed := fun n hn hle => ?_ }
  rcases Nat.lt_trichotomy n s with hlt | rfl | hlt
  · right
    by_contra hopen
    have hfollows := h.single [] s rest hlink n hn hlt hopen
    simp [Follows, hheld] at hfollows
  · exact .inl rfl
  · dsimp only at hle
    omega

/-- Where an item stands in a batch opened ahead of a link. -/
theorem split_opened {pre post : List Item} {x : Item}
    (h : ns.map Item.single ++ rest = pre ++ x :: post) :
    (∃ before after u, ns = before ++ u :: after ∧ x = .single u ∧ pre = before.map Item.single ∧
      post = after.map Item.single ++ rest) ∨
    ∃ pre', pre = ns.map Item.single ++ pre' ∧ rest = pre' ++ x :: post := by
  induction ns generalizing pre with
  | nil => exact .inr ⟨pre, rfl, h⟩
  | cons u ns ih =>
    cases pre with
    | nil =>
      obtain ⟨rfl, rfl⟩ := List.cons_eq_cons.mp h
      exact .inl ⟨[], ns, u, rfl, rfl, rfl, rfl⟩
    | cons y pre =>
      obtain ⟨rfl, hrest⟩ := List.cons_eq_cons.mp h
      rcases ih hrest with ⟨before, after, v, rfl, rfl, rfl, rfl⟩ | ⟨pre', rfl, rfl⟩
      · exact .inl ⟨u :: before, after, v, rfl, rfl, rfl, rfl⟩
      · exact .inr ⟨pre', rfl, rfl⟩

theorem waiting_opened {pending : List ℕ} {n : ℕ}
    (h : Waiting pending (ns.map Item.single ++ rest) n) : Waiting pending (.batch ns :: rest) n := by
  refine h.imp_right ?_
  rintro ⟨item, hmem, hn⟩
  rcases List.mem_append.mp hmem with hmem | hmem
  · obtain ⟨u, hu, rfl⟩ := List.mem_map.mp hmem
    obtain rfl := List.mem_singleton.mp hn
    exact ⟨.batch ns, by simp, hu⟩
  · exact ⟨item, List.mem_cons_of_mem _ hmem, hn⟩

theorem brought_singles {n : ℕ} (h : Brought n rest) : Brought n (ns.map Item.single ++ rest) := by
  induction ns with
  | nil => exact h
  | cons u ns ih => exact ih

/-- A batch opened: its items come one by one, ahead of the rest, and nothing is held back. -/
theorem openBatch (h : InOrder l) (hlink : l.link = .batch ns :: rest) :
    InOrder { l with link := ns.map Item.single ++ rest, held := false } where
  sorted := h.sorted
  made n hn := h.made n (hlink ▸ waiting_opened hn)
  back := h.back
  last := h.last
  passed n hn hle := h.passed n (hlink ▸ waiting_opened hn) hle
  answered := h.answered
  batch pre ns' post hat := by
    rcases split_opened hat with ⟨before, after, u, -, hx, -, -⟩ | ⟨pre', rfl, hrest⟩
    · cases hx
    · exact h.batch (.batch ns :: pre') ns' post (by rw [hlink, hrest]; rfl)
  single pre s post hat n hn hlt hopen := by
    obtain ⟨hsorted, hclosed⟩ := h.batch [] ns rest hlink
    rcases split_opened hat with ⟨before, after, u, hns, hx, rfl, rfl⟩ | ⟨pre', rfl, hrest⟩
    · -- an item of the batch: what it could overtake came before it in the batch
      obtain rfl := Item.single.inj hx
      have hbefore : n ∈ before := by
        rw [hns, List.pairwise_append, List.pairwise_cons] at hsorted
        have hmem : n ∈ before ++ s :: after := by
          rw [← hns]
          rcases hn with hn | ⟨item, hmem, hn⟩
          · exact hclosed s (by simp [hns]) n (.inl hn) hlt
          · rcases List.mem_append.mp hmem with hmem | hmem
            · obtain ⟨v, hv, rfl⟩ := List.mem_map.mp hmem
              obtain rfl := List.mem_singleton.mp hn
              simp [hns, hv]
            · exact hclosed s (by simp [hns]) n (.inr ⟨item, hmem, hn⟩) hlt
        rcases List.mem_append.mp hmem with hmem | hmem
        · exact hmem
        · rcases List.mem_cons.mp hmem with rfl | hmem
          · omega
          · have hafter := hsorted.2.1.1 n hmem
            omega
      have hbrought : Brought n (before.map Item.single ++ []) := brought_singles trivial
      exact ⟨.inr (List.mem_map_of_mem hbefore), by simpa using hbrought⟩
    · -- behind the batch: brought by it, or singly after it
      obtain ⟨-, hbrought⟩ := h.single (.batch ns :: pre') s post (by rw [hlink, hrest]; rfl)
        n hn hlt hopen
      refine ⟨.inr (List.mem_append.mpr ?_), brought_singles hbrought.2⟩
      exact hbrought.1.imp_left fun hmem => List.mem_map_of_mem hmem

end Receive

end InOrder

end LazyStorage.Lib
