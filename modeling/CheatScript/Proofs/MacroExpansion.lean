import CheatScript.Proofs.CallExpansion
import Mathlib.Data.Finset.Card

/-!
# Proofs: calls are macros

The loop over the calls of a script rewrites the list of commands: it puts the body of a function in
the place of a call, numbers all commands again and goes on with the first command it has put in.
What it comes to is the list in which every call is replaced, from left to right, by what the calls
of its body come to. Positions have no part in what a call stands for, so the numbers in between do
not matter, and the guard against recursion changes no result. Where the loop comes to a list, no
function leads back to itself, so the bound on the depth is not met. Where the bound is not met, the
loop also fails if `expand` does, and alike.
-/

namespace CheatScript

/-! ## Positions -/

/-- The command without its position. -/
def Command.unplaced (c : Command) : Command := { c with position := 0 }

/-- Commands that are the same without their positions differ in nothing else. -/
theorem Command.eq_of_unplaced {c d : Command} (h : c.unplaced = d.unplaced) :
    d = { c with position := d.position } := by
  obtain ⟨text, name, args, position, trace, callers⟩ := c
  obtain ⟨text', name', args', position', trace', callers'⟩ := d
  obtain ⟨rfl, rfl, rfl, -, rfl, rfl⟩ := Command.mk.inj h
  rfl

/-- Whether the positions of commands are their indices in the list. -/
def Numbered (cmds : List Command) : Prop := ∀ (i : Nat) c, cmds[i]? = some c → c.position = i

section Positions

variable {cmds others : List Command}

theorem getElem?_renumber (cmds : List Command) (i : Nat) :
    (renumber cmds)[i]? = cmds[i]?.map fun c => { c with position := i } := by
  rw [renumber, List.getElem?_map, List.getElem?_zipIdx, Option.map_map]
  simp only [Nat.zero_add]
  rfl

theorem numbered_renumber (cmds : List Command) : Numbered (renumber cmds) := by
  intro i c h
  rw [getElem?_renumber] at h
  obtain ⟨d, -, rfl⟩ := Option.map_eq_some_iff.1 h
  rfl

theorem map_unplaced_renumber (cmds : List Command) :
    (renumber cmds).map Command.unplaced = cmds.map Command.unplaced := by
  refine List.ext_getElem? fun i => ?_
  rw [List.getElem?_map, List.getElem?_map, getElem?_renumber, Option.map_map]
  rfl

/-- Numbered commands are known from what they are apart from their positions. -/
theorem Numbered.eq_of_unplaced (h : Numbered cmds) (h' : Numbered others)
    (hsame : cmds.map Command.unplaced = others.map Command.unplaced) : cmds = others := by
  refine List.ext_getElem? fun i => ?_
  have hat := congrArg (·[i]?) hsame
  simp only [List.getElem?_map] at hat
  cases hc : cmds[i]? with
  | none =>
    rw [hc, Option.map_none] at hat
    exact (Option.map_eq_none_iff.1 hat.symm).symm
  | some c =>
    rw [hc, Option.map_some] at hat
    obtain ⟨d, hd, hcd⟩ := Option.map_eq_some_iff.1 hat.symm
    have hposition : d.position = c.position := (h' i d hd).trans (h i c hc).symm
    rw [hd, Command.eq_of_unplaced hcd.symm, hposition]

end Positions

namespace Call

variable {functions : List Function} {call c d : Command} {cmds others body out : List Command}

/-- The position of a call has a part only in a failure that blames the call. -/
theorem inline_position (functions : List Function) (hsame : c.unplaced = d.unplaced) :
    inline functions d = inline functions c ∨
      ∃ kind, inline functions c = c.refuse kind ∧ inline functions d = d.refuse kind := by
  have hplace := Command.eq_of_unplaced hsame
  have hresolve : resolve functions d = resolve functions c := by
    rw [hplace]
    rfl
  cases hfound : resolve functions c with
  | error kind =>
    refine .inr ⟨kind, ?_, ?_⟩
    · rw [inline, hfound]
      rfl
    · rw [inline, hresolve, hfound]
      rfl
  | ok found =>
    refine .inl ?_
    rw [inline, inline, hresolve, hfound, hplace]
    rfl

theorem open?_position (functions : List Function) (hsame : c.unplaced = d.unplaced) :
    open? functions d = open? functions c ∨
      ∃ kind, open? functions c = c.refuse kind ∧ open? functions d = d.refuse kind := by
  have hguard : isRecursive d = isRecursive c := by
    rw [Command.eq_of_unplaced hsame]
    rfl
  rcases inline_position functions hsame with heq | ⟨kind, hc, hd⟩
  · refine .inl ?_
    rw [open?, open?, heq, hguard]
  · refine .inr ⟨kind, ?_, ?_⟩
    · rw [open?, hc]
      rfl
    · rw [open?, hd]
      rfl

theorem open?_unplaced (hsame : c.unplaced = d.unplaced) (h : open? functions c = .ok body) :
    open? functions d = .ok body := by
  rcases open?_position functions hsame with heq | ⟨kind, hc, -⟩
  · rw [heq, h]
  · rw [h] at hc
    cases hc

/-! ## Recursive expansion -/

/-- Whether no command of a list is a call. -/
def NoCall (cmds : List Command) : Prop := ∀ c ∈ cmds, c.name ≠ ascii "CALL"

theorem NoCall.unplaced (h : NoCall cmds)
    (hsame : others.map Command.unplaced = cmds.map Command.unplaced) : NoCall others := by
  intro c hc
  have hmem : c.unplaced ∈ cmds.map Command.unplaced := hsame ▸ List.mem_map_of_mem hc
  obtain ⟨d, hd, hdc⟩ := List.mem_map.1 hmem
  rw [Command.eq_of_unplaced hdc]
  exact h d hd

/-- What commands come to if calls are macros: a call comes to what the commands it stands for come
to, and any other command to itself, from left to right. -/
inductive Expansion (standsFor : Command → Except Failure (List Command)) :
    List Command → List Command → Prop
  | nil : Expansion standsFor [] []
  | other {c : Command} {cmds out : List Command} :
      c.name ≠ ascii "CALL" → Expansion standsFor cmds out →
        Expansion standsFor (c :: cmds) (c :: out)
  | call {c : Command} {cmds body inner out : List Command} :
      c.name = ascii "CALL" → standsFor c = .ok body → Expansion standsFor body inner →
      Expansion standsFor cmds out → Expansion standsFor (c :: cmds) (inner ++ out)

namespace Expansion

variable {standsFor standsFor' : Command → Except Failure (List Command)}

theorem of_noCall (h : NoCall cmds) : Expansion standsFor cmds cmds := by
  induction cmds with
  | nil => exact .nil
  | cons c cmds ih =>
    obtain ⟨hc, hcmds⟩ := List.forall_mem_cons.1 h
    exact .other hc (ih hcmds)

/-- No call is left. -/
theorem noCall (h : Expansion standsFor cmds out) : NoCall out := by
  induction h with
  | nil => exact fun _ hc => absurd hc List.not_mem_nil
  | other hc _ ih => exact List.forall_mem_cons.2 ⟨hc, ih⟩
  | call _ _ _ _ ihBody ih => exact List.forall_mem_append.2 ⟨ihBody, ih⟩

/-- Commands come to one list only. -/
theorem unique (h : Expansion standsFor cmds out) (h' : Expansion standsFor cmds others) :
    others = out := by
  induction h generalizing others with
  | nil =>
    cases h'
    rfl
  | other hc _ ih =>
    cases h' with
    | other _ hrest => rw [ih hrest]
    | call hcall _ _ _ => exact absurd hcall hc
  | call hc hbody _ _ ihBody ih =>
    cases h' with
    | other hother _ => exact absurd hc hother
    | call _ hbody' hinner hrest =>
      obtain rfl := Except.ok.inj (hbody.symm.trans hbody')
      rw [ihBody hinner, ih hrest]

theorem mono (hsub : ∀ c body, standsFor c = .ok body → standsFor' c = .ok body)
    (h : Expansion standsFor cmds out) : Expansion standsFor' cmds out := by
  induction h with
  | nil => exact .nil
  | other hc _ ih => exact .other hc ih
  | call hc hbody _ _ ihBody ih => exact .call hc (hsub _ _ hbody) ihBody ih

theorem append {more moreOut : List Command} (h : Expansion standsFor cmds out)
    (hmore : Expansion standsFor more moreOut) :
    Expansion standsFor (cmds ++ more) (out ++ moreOut) := by
  induction h with
  | nil => exact hmore
  | other hc _ ih => exact .other hc ih
  | call hc hbody hinner _ _ ih =>
    rw [List.append_assoc]
    exact .call hc hbody hinner ih

theorem of_append {more : List Command} (h : Expansion standsFor (cmds ++ more) out) :
    ∃ first rest, out = first ++ rest ∧ Expansion standsFor cmds first ∧
      Expansion standsFor more rest := by
  induction cmds generalizing out with
  | nil => exact ⟨[], out, rfl, .nil, h⟩
  | cons c cmds ih =>
    cases h with
    | other hc hrest =>
      obtain ⟨first, rest, rfl, hfirst, hmore⟩ := ih hrest
      exact ⟨c :: first, rest, rfl, .other hc hfirst, hmore⟩
    | call hc hbody hinner hrest =>
      obtain ⟨first, rest, rfl, hfirst, hmore⟩ := ih hrest
      exact ⟨_ ++ first, rest, (List.append_assoc ..).symm, .call hc hbody hinner hfirst, hmore⟩

/-- A call may give way to the commands it stands for before the others are worked in. -/
theorem of_replaced {before after : List Command} (hcall : call.name = ascii "CALL")
    (hbody : standsFor call = .ok body) (h : Expansion standsFor (before ++ (body ++ after)) out) :
    Expansion standsFor (before ++ call :: after) out := by
  obtain ⟨first, rest, rfl, hbefore, hrest⟩ := of_append h
  obtain ⟨inner, last, rfl, hinner, hafter⟩ := of_append hrest
  exact hbefore.append (.call hcall hbody hinner hafter)

/-- Positions have no part in what commands come to, apart from the positions there. -/
theorem unplaced (hstands : ∀ c d body, c.unplaced = d.unplaced → standsFor c = .ok body →
      standsFor d = .ok body) (h : Expansion standsFor cmds out)
    (hsame : cmds.map Command.unplaced = others.map Command.unplaced) :
    ∃ out', Expansion standsFor others out' ∧
      out.map Command.unplaced = out'.map Command.unplaced := by
  induction h generalizing others with
  | nil =>
    obtain rfl := List.map_eq_nil_iff.1 hsame.symm
    exact ⟨[], .nil, rfl⟩
  | other hc _ ih =>
    obtain ⟨d, rest, rfl, hd, hrest⟩ := List.map_eq_cons_iff.1 hsame.symm
    obtain ⟨out', hout', hsame'⟩ := ih hrest.symm
    have hname : d.name ≠ ascii "CALL" := by rwa [Command.eq_of_unplaced hd.symm]
    refine ⟨d :: out', .other hname hout', ?_⟩
    rw [List.map_cons, List.map_cons, hsame', hd]
  | call hc hbody hinner _ _ ih =>
    obtain ⟨d, rest, rfl, hd, hrest⟩ := List.map_eq_cons_iff.1 hsame.symm
    obtain ⟨out', hout', hsame'⟩ := ih hrest.symm
    have hname : d.name = ascii "CALL" := by rwa [Command.eq_of_unplaced hd.symm]
    refine ⟨_ ++ out', .call hname (hstands _ d _ hd.symm hbody) hinner hout', ?_⟩
    rw [List.map_append, List.map_append, hsame']

end Expansion

theorem Expansion.inline (h : Expansion (open? functions) cmds out) :
    Expansion (Call.inline functions) cmds out :=
  h.mono fun _ _ hopen => (open?_eq_ok hopen).1

/-! ## Functions that call each other -/

/-- Whether a call in the body of `f` calls `g`. -/
def CalledIn (functions : List Function) (g f : Function) : Prop :=
  ∃ c ∈ f.body, c.name = ascii "CALL" ∧ Calls functions c g

/-- A function whose call was worked in to the end does not lead back to itself: what a line calls
depends on its text, which no argument changes. -/
theorem Expansion.acc (h : Expansion (open? functions) cmds out) :
    ∀ c ∈ cmds, c.name = ascii "CALL" → ∀ f, Calls functions c f → Acc (CalledIn functions) f := by
  induction h with
  | nil => exact fun _ hc => absurd hc List.not_mem_nil
  | other hother _ ih =>
    refine List.forall_mem_cons.2 ⟨fun hcall => absurd hcall hother, ih⟩
  | @call c cmds body inner out _ hopen _ _ ihBody ih =>
    refine List.forall_mem_cons.2 ⟨fun _ f hcalls => ?_, ih⟩
    obtain ⟨g, hcalls', hbody⟩ := inline_brings (open?_eq_ok hopen).1
    obtain ⟨name, hcallee, hfind⟩ := hcalls
    obtain ⟨name', hcallee', hfind'⟩ := hcalls'
    obtain rfl := Option.some.inj (hcallee.symm.trans hcallee')
    obtain rfl := Option.some.inj (hfind.symm.trans hfind')
    refine ⟨f, fun g hg => ?_⟩
    obtain ⟨d, hd, hdname, hdcalls⟩ := hg
    obtain ⟨b, hb, hfrom⟩ := Outcome.exists_of_mem_left hbody hd
    refine ihBody b hb (hfrom.name.trans hdname) g ?_
    rwa [Calls, hfrom.text]

open Classical in
/-- The number of functions that a function leads to. -/
noncomputable def reach (functions : List Function) (f : Function) : Nat :=
  (functions.toFinset.filter fun g => Relation.TransGen (CalledIn functions) g f).card

theorem reach_le (f : Function) : reach functions f ≤ functions.length := by
  classical
  exact (Finset.card_filter_le _ _).trans (List.toFinset_card_le functions)

/-- A function that does not lead back to itself leads to more functions than those it calls. -/
theorem reach_lt {f g : Function} (hacc : Acc (CalledIn functions) f) (h : CalledIn functions g f) :
    reach functions g < reach functions f := by
  classical
  have hg : g ∈ functions := by
    obtain ⟨c, -, -, hcalls⟩ := h
    exact hcalls.mem.1
  have hirrefl : ∀ k, Acc (Relation.TransGen (CalledIn functions)) k →
      ¬ Relation.TransGen (CalledIn functions) k k := by
    intro k hk
    induction hk with
    | intro k _ ih => exact fun hcycle => ih k hcycle hcycle
  have hself := hirrefl g (hacc.inv h).transGen
  refine Finset.card_lt_card (Finset.ssubset_iff_of_subset ?_ |>.2 ⟨g, ?_, ?_⟩)
  · intro k hk
    rw [Finset.mem_filter] at hk ⊢
    exact ⟨hk.1, hk.2.tail h⟩
  · rw [Finset.mem_filter, List.mem_toFinset]
    exact ⟨hg, .single h⟩
  · rw [Finset.mem_filter]
    exact fun hmem => hself hmem.2

/-! ## Expansion to a depth -/

theorem expansion_of_expandWithin (depth : Nat) :
    ∀ cmds out, expandWithin functions depth cmds = .ok out →
      Expansion (open? functions) cmds out := by
  induction depth with
  | zero =>
    intro cmds out h
    unfold expandWithin at h
    split at h
    · cases h
    · rename_i hnone
      obtain rfl := Except.ok.inj h
      exact .of_noCall fun c hc hcall => List.find?_eq_none.1 hnone c hc (beq_iff_eq.2 hcall)
  | succ depth ihDepth =>
    intro cmds
    induction cmds with
    | nil =>
      intro out h
      obtain rfl := Outcome.pure_eq_ok.1 h
      exact .nil
    | cons c cmds ih =>
      intro out h
      rw [expandWithin_cons] at h
      obtain ⟨first, hfirst, h⟩ := Outcome.bind_eq_ok.1 h
      obtain ⟨rest, hrest, h⟩ := Outcome.bind_eq_ok.1 h
      obtain rfl := Outcome.pure_eq_ok.1 h
      unfold expandOne at hfirst
      split at hfirst
      · rename_i hcall
        obtain ⟨body, hopen, hinner⟩ := Outcome.bind_eq_ok.1 hfirst
        exact .call hcall hopen (ihDepth body first hinner) (ih rest hrest)
      · rename_i hother
        obtain rfl := Outcome.pure_eq_ok.1 hfirst
        exact .other hother (ih rest hrest)

/-- A depth of more than the functions that the called ones lead to is not met. -/
theorem expandWithin_of_expansion (h : Expansion (open? functions) cmds out) :
    ∀ depth, (∀ c ∈ cmds, c.name = ascii "CALL" → ∀ f, Calls functions c f →
      reach functions f < depth) → expandWithin functions (depth + 1) cmds = .ok out := by
  induction h with
  | nil => exact fun _ _ => rfl
  | other hother _ ih =>
    intro depth hreach
    rw [expandWithin_cons, expandOne, if_neg hother, ih depth (List.forall_mem_cons.1 hreach).2]
    rfl
  | @call c cmds body inner out hcall hopen hinner _ ihBody ih =>
    intro depth hreach
    obtain ⟨hfirst, hrest⟩ := List.forall_mem_cons.1 hreach
    obtain ⟨f, hcalls, hbody⟩ := inline_brings (open?_eq_ok hopen).1
    have hacc : Acc (CalledIn functions) f :=
      (Expansion.call hcall hopen hinner .nil).acc c List.mem_cons_self hcall f hcalls
    have hdepth := hfirst hcall f hcalls
    -- what the body calls leads to fewer functions, so one level less is enough for it
    obtain ⟨less, rfl⟩ : ∃ less, depth = less + 1 := ⟨depth - 1, by omega⟩
    have hless : ∀ b ∈ body, b.name = ascii "CALL" → ∀ g, Calls functions b g →
        reach functions g < less := by
      intro b hb hbcall g hg
      obtain ⟨d, hd, hfrom⟩ := Outcome.exists_of_mem_right hbody hb
      have hcalled : CalledIn functions g f :=
        ⟨d, hd, hfrom.name ▸ hbcall, by rwa [Calls, ← hfrom.text]⟩
      have hlt := reach_lt hacc hcalled
      omega
    have hone : expandOne functions (less + 1) c = .ok inner := by
      rw [expandOne, if_pos hcall, hopen]
      exact ihBody less hless
    rw [expandWithin_cons, hone, ih (less + 1) hrest]
    rfl

/-- Commands are worked in if they come to something, and what they come to is numbered. -/
theorem expand_eq_ok : expand functions cmds = .ok out ↔
    ∃ plain, Expansion (open? functions) cmds plain ∧ out = renumber plain := by
  constructor
  · intro h
    obtain ⟨plain, hplain, hout⟩ := Outcome.bind_eq_ok.1 h
    exact ⟨plain, expansion_of_expandWithin _ cmds plain hplain, (Outcome.pure_eq_ok.1 hout).symm⟩
  · rintro ⟨plain, hplain, rfl⟩
    refine Outcome.bind_eq_ok.2 ⟨plain, ?_, rfl⟩
    refine expandWithin_of_expansion hplain (functions.length + 999) fun c _ _ f _ => ?_
    have hle : reach functions f ≤ functions.length := reach_le f
    omega

/-! ## The loop -/

/-- The state of the loop: the index from which it looks for a call, and the commands. -/
structure Rewriting where
  start : Nat
  cmds : List Command

/-- The index of the first call from an index on. -/
def nextCall? (start : Nat) (cmds : List Command) : Option Nat :=
  ((cmds.drop start).findIdx? (·.name == ascii "CALL")).map (start + ·)

/-- One round of the loop: the next call gives way to the commands it stands for, and all commands
are numbered. The next round looks for a call from the place of this one on. -/
def round (functions : List Function) (s : Rewriting) : Option (Except Failure Rewriting) :=
  (nextCall? s.start s.cmds).bind fun i => s.cmds[i]?.map fun call =>
    (open? functions call).map fun body =>
      ⟨i, renumber (s.cmds.take i ++ (body ++ s.cmds.drop (i + 1)))⟩

section Rounds

variable {start : Nat} {before after : List Command}

theorem nextCall?_eq_none :
    nextCall? start cmds = none ↔ NoCall (cmds.drop start) := by
  rw [nextCall?, Option.map_eq_none_iff, List.findIdx?_eq_none_iff]
  simp only [beq_eq_false_iff_ne, NoCall]

theorem nextCall?_append (hstart : start ≤ before.length)
    (hbefore : NoCall (before.drop start)) (hcall : call.name = ascii "CALL") :
    nextCall? start (before ++ call :: after) = some before.length := by
  have hnone : (before.drop start).findIdx? (·.name == ascii "CALL") = none := by
    rw [List.findIdx?_eq_none_iff]
    exact fun c hc => beq_eq_false_iff_ne.2 (hbefore c hc)
  have hfirst : (call :: after).findIdx? (·.name == ascii "CALL") = some 0 := by
    rw [List.findIdx?_cons, hcall]
    rfl
  rw [nextCall?, List.drop_append_of_le_length hstart, List.findIdx?_append, hnone, hfirst]
  simp only [Option.none_or, Option.map_some, List.length_drop]
  congr 1
  omega

theorem exists_of_nextCall? {i : Nat} (h : nextCall? start cmds = some i) :
    ∃ before call after, cmds = before ++ call :: after ∧ before.length = i ∧ start ≤ i ∧
      NoCall (before.drop start) ∧ call.name = ascii "CALL" := by
  obtain ⟨k, hk, rfl⟩ := Option.map_eq_some_iff.1 h
  obtain ⟨hlt, hcall, hnone⟩ := List.findIdx?_eq_some_iff_getElem.1 hk
  have hi : start + k < cmds.length := by
    rw [List.length_drop] at hlt
    omega
  rw [List.getElem_drop] at hcall
  refine ⟨cmds.take (start + k), cmds[start + k], cmds.drop (start + k + 1), ?_, ?_, ?_, ?_,
    beq_iff_eq.1 hcall⟩
  · rw [List.getElem_cons_drop, List.take_append_drop]
  · rw [List.length_take]
    omega
  · omega
  · intro c hc
    rw [List.drop_take, Nat.add_sub_cancel_left, List.mem_take_iff_getElem] at hc
    obtain ⟨j, hj, rfl⟩ := hc
    exact beq_eq_false_iff_ne.1 (Bool.eq_false_iff.2 (hnone j (by omega)))

theorem round_at_call {s : Rewriting} (hcmds : s.cmds = before ++ call :: after)
    (hstart : s.start ≤ before.length) (hbefore : NoCall (before.drop s.start))
    (hcall : call.name = ascii "CALL") :
    round functions s = some ((open? functions call).map fun body =>
      ⟨before.length, renumber (before ++ (body ++ after))⟩) := by
  rw [round, hcmds, nextCall?_append hstart hbefore hcall]
  simp

/-- What a round does, said once: a call before which no other one is left to look at gives way. -/
theorem round_eq_ok {s next : Rewriting} (h : round functions s = some (.ok next)) :
    ∃ before call body after, s.cmds = before ++ call :: after ∧ s.start ≤ before.length ∧
      NoCall (before.drop s.start) ∧ call.name = ascii "CALL" ∧
      open? functions call = .ok body ∧
      next = ⟨before.length, renumber (before ++ (body ++ after))⟩ := by
  cases hnext : nextCall? s.start s.cmds with
  | none =>
    rw [round, hnext] at h
    cases h
  | some i =>
    obtain ⟨before, call, after, hcmds, rfl, hstart, hbefore, hcall⟩ := exists_of_nextCall? hnext
    rw [round_at_call hcmds hstart hbefore hcall] at h
    cases hopen : open? functions call with
    | error e =>
      rw [hopen] at h
      cases h
    | ok body =>
      rw [hopen] at h
      obtain rfl := Except.ok.inj (Option.some.inj h)
      exact ⟨before, call, body, after, hcmds, hstart, hbefore, hcall, hopen, rfl⟩

theorem round_eq_none {s : Rewriting} :
    round functions s = none ↔ NoCall (s.cmds.drop s.start) := by
  rw [← nextCall?_eq_none]
  constructor
  · intro h
    cases hnext : nextCall? s.start s.cmds with
    | none => rfl
    | some i =>
      obtain ⟨before, call, after, hcmds, rfl, hstart, hbefore, hcall⟩ := exists_of_nextCall? hnext
      rw [round_at_call hcmds hstart hbefore hcall] at h
      cases h
  · intro h
    rw [round, h]
    rfl

/-- No call is left before the place from which the loop looks for the next one. -/
theorem round_noCall {s next : Rewriting} (h : round functions s = some (.ok next))
    (hs : NoCall (s.cmds.take s.start)) : NoCall (next.cmds.take next.start) := by
  obtain ⟨before, call, body, after, hcmds, hstart, hbefore, -, -, rfl⟩ := round_eq_ok h
  have hall : NoCall before := by
    rw [hcmds, List.take_append_of_le_length hstart] at hs
    rw [NoCall, ← List.take_append_drop s.start before]
    exact List.forall_mem_append.2 ⟨hs, hbefore⟩
  refine hall.unplaced ?_
  rw [List.map_take, map_unplaced_renumber, ← List.map_take, List.take_left]

theorem run_noCall {s last : Rewriting} (h : Loop.Run (round functions) s last)
    (hs : NoCall (s.cmds.take s.start)) : NoCall (last.cmds.take last.start) := by
  induction h with
  | refl => exact hs
  | tail _ hround ih => exact round_noCall hround ih

theorem run_numbered {s last : Rewriting} (h : Loop.Run (round functions) s last)
    (hs : Numbered s.cmds) : Numbered last.cmds := by
  induction h with
  | refl => exact hs
  | tail _ hround _ =>
    obtain ⟨before, call, body, after, -, -, -, -, -, rfl⟩ := round_eq_ok hround
    exact numbered_renumber _

end Rounds

/-! ## The loop is recursive expansion -/

/-- What the loop comes to is what the commands come to, apart from the positions. -/
theorem expansion_of_run {s last : Rewriting} (h : Loop.Run (round functions) s last)
    (hlast : NoCall last.cmds) :
    ∃ plain, Expansion (open? functions) s.cmds plain ∧
      plain.map Command.unplaced = last.cmds.map Command.unplaced := by
  induction h using Relation.ReflTransGen.head_induction_on with
  | refl => exact ⟨_, .of_noCall hlast, rfl⟩
  | head hround _ ih =>
    obtain ⟨before, call, body, after, hcmds, -, -, hcall, hopen, rfl⟩ := round_eq_ok hround
    obtain ⟨plain, hplain, hsame⟩ := ih
    obtain ⟨plain', hplain', hsame'⟩ :=
      hplain.unplaced (fun _ _ _ => open?_unplaced) (map_unplaced_renumber _)
    refine ⟨plain', ?_, hsame'.symm.trans hsame⟩
    rw [hcmds]
    exact .of_replaced hcall hopen hplain'

/-- Whether failures differ at most in the position of the command blamed. -/
def SameFailure (e f : Failure) : Prop :=
  e.kind = f.kind ∧ e.command.unplaced = f.command.unplaced

/-- A round that meets a call in the middle of a list, up to positions. -/
theorem round_placed (functions : List Function) {before after : List Command} {s : Rewriting}
    (hstart : s.start ≤ before.length) (hbefore : NoCall before) (hcall : call.name = ascii "CALL")
    (hsame : s.cmds.map Command.unplaced = (before ++ call :: after).map Command.unplaced) :
    ∃ passed d rest, call.unplaced = d.unplaced ∧ passed.length = before.length ∧
      (∀ body, (renumber (passed ++ (body ++ rest))).map Command.unplaced =
        (before ++ (body ++ after)).map Command.unplaced) ∧
      round functions s = some ((open? functions d).map fun body =>
        ⟨passed.length, renumber (passed ++ (body ++ rest))⟩) := by
  rw [List.map_append, List.map_cons] at hsame
  obtain ⟨passed, ahead, hcmds, hpassed, hahead⟩ := List.map_eq_append_iff.1 hsame
  obtain ⟨d, rest, rfl, hd, hrest⟩ := List.map_eq_cons_iff.1 hahead
  have hlength : passed.length = before.length := by simpa using congrArg List.length hpassed
  have hfree : NoCall passed := hbefore.unplaced hpassed
  refine ⟨passed, d, rest, hd.symm, hlength, fun body => ?_, ?_⟩
  · rw [map_unplaced_renumber]
    simp only [List.map_append]
    rw [hpassed, hrest]
  · exact round_at_call hcmds (by omega) (fun e he => hfree e (List.mem_of_mem_drop he))
      (by rwa [Command.eq_of_unplaced hd.symm])

/-- A call in the middle of a list gives way to the commands it stands for. -/
theorem round_opened {before after : List Command} {s : Rewriting}
    (hstart : s.start ≤ before.length) (hbefore : NoCall before) (hcall : call.name = ascii "CALL")
    (hsame : s.cmds.map Command.unplaced = (before ++ call :: after).map Command.unplaced)
    (h : open? functions call = .ok body) :
    ∃ next, round functions s = some (.ok next) ∧ next.start ≤ before.length ∧
      next.cmds.map Command.unplaced = (before ++ (body ++ after)).map Command.unplaced := by
  obtain ⟨passed, d, rest, hd, hlength, hnext, hround⟩ :=
    round_placed functions hstart hbefore hcall hsame
  rw [open?_unplaced hd h] at hround
  exact ⟨_, hround, hlength.le, hnext body⟩

/-- A call in the middle of a list that is refused ends the loop. -/
theorem round_refused {before after : List Command} {s : Rewriting} {f : Failure}
    (hstart : s.start ≤ before.length) (hbefore : NoCall before) (hcall : call.name = ascii "CALL")
    (hsame : s.cmds.map Command.unplaced = (before ++ call :: after).map Command.unplaced)
    (h : open? functions call = .error f) :
    ∃ e, round functions s = some (.error e) ∧ SameFailure e f := by
  obtain ⟨passed, d, rest, hd, -, -, hround⟩ :=
    round_placed functions hstart hbefore hcall hsame
  rcases open?_position functions hd with heq | ⟨kind, hrefused, hplaced⟩
  · rw [heq, h] at hround
    exact ⟨f, hround, rfl, rfl⟩
  · rw [h] at hrefused
    obtain rfl := Except.error.inj hrefused
    rw [hplaced] at hround
    exact ⟨_, hround, rfl, hd.symm⟩

/-- The loop works in the commands in the middle of a list, if no call is before them. -/
theorem run_of_expansion (h : Expansion (open? functions) cmds out) :
    ∀ (before after : List Command) (s : Rewriting), s.start ≤ before.length → NoCall before →
      s.cmds.map Command.unplaced = (before ++ (cmds ++ after)).map Command.unplaced →
      ∃ last, Loop.Run (round functions) s last ∧ last.start ≤ (before ++ out).length ∧
        last.cmds.map Command.unplaced = (before ++ (out ++ after)).map Command.unplaced := by
  induction h with
  | nil =>
    intro before after s hstart _ hsame
    exact ⟨s, .refl, by rwa [List.append_nil], hsame⟩
  | @other c cmds out hother _ ih =>
    intro before after s hstart hbefore hsame
    have hpassed : NoCall (before ++ [c]) :=
      List.forall_mem_append.2 ⟨hbefore, by simpa using hother⟩
    have hlength : s.start ≤ (before ++ [c]).length := by
      rw [List.length_append]
      omega
    simpa using ih (before ++ [c]) after s hlength hpassed (by simpa using hsame)
  | @call c cmds body inner out hcall hopen hinner _ ihBody ih =>
    intro before after s hstart hbefore hsame
    obtain ⟨next, hround, hnext, hsame'⟩ := round_opened hstart hbefore hcall hsame hopen
    obtain ⟨middle, hrun, hstart', hmiddle⟩ :=
      ihBody before (cmds ++ after) next hnext hbefore hsame'
    have hdone : NoCall (before ++ inner) := List.forall_mem_append.2 ⟨hbefore, hinner.noCall⟩
    obtain ⟨last, hrun', hstart'', hlast⟩ :=
      ih (before ++ inner) after middle hstart' hdone (by simpa using hmiddle)
    have hfirst : Loop.Run (round functions) s middle := .head hround hrun
    exact ⟨last, hfirst.trans hrun', by simpa using hstart'', by simpa using hlast⟩

/-- The loop over numbered commands ends with a list if `expand` gives that list. -/
theorem expand_eq_ok_iff_run (hnumbered : Numbered cmds) : expand functions cmds = .ok out ↔
    ∃ last, Loop.Run (round functions) ⟨0, cmds⟩ last ∧ round functions last = none ∧
      last.cmds = out := by
  rw [expand_eq_ok]
  constructor
  · rintro ⟨plain, hplain, rfl⟩
    obtain ⟨last, hrun, -, hlast⟩ :=
      run_of_expansion hplain [] [] ⟨0, cmds⟩ (Nat.le_refl 0) (fun _ h => absurd h List.not_mem_nil)
        (by simp)
    rw [List.nil_append, List.append_nil] at hlast
    have hfree : NoCall last.cmds := hplain.noCall.unplaced hlast
    refine ⟨last, hrun, round_eq_none.2 fun c hc => hfree c (List.mem_of_mem_drop hc), ?_⟩
    refine (run_numbered hrun hnumbered).eq_of_unplaced (numbered_renumber plain) ?_
    rw [hlast, map_unplaced_renumber]
  · rintro ⟨last, hrun, hnone, rfl⟩
    have hfree : NoCall last.cmds := by
      have hpassed : NoCall (last.cmds.take last.start) :=
        run_noCall hrun fun _ h => absurd h List.not_mem_nil
      rw [NoCall, ← List.take_append_drop last.start last.cmds]
      exact List.forall_mem_append.2 ⟨hpassed, round_eq_none.1 hnone⟩
    obtain ⟨plain, hplain, hsame⟩ := expansion_of_run hrun hfree
    refine ⟨plain, hplain, ?_⟩
    refine (run_numbered hrun hnumbered).eq_of_unplaced (numbered_renumber plain) ?_
    rw [map_unplaced_renumber, hsame]

/-! ## Failures of the loop -/

/-- What the loop over the calls of a list of commands comes to. -/
def Comes (functions : List Function) (cmds : List Command)
    (r : Except Failure (List Command)) : Prop :=
  ∃ x, Loop.Ends (round functions) ⟨0, renumber cmds⟩ x ∧ r = x.map Rewriting.cmds

theorem Comes.unique {r r' : Except Failure (List Command)} (h : Comes functions cmds r)
    (h' : Comes functions cmds r') : r = r' := by
  obtain ⟨x, hx, rfl⟩ := h
  obtain ⟨x', hx', rfl⟩ := h'
  rw [hx.unique hx']

/-- Numbers have no part in what calls come to. -/
theorem expand_renumber :
    expand functions (renumber cmds) = .ok out ↔ expand functions cmds = .ok out := by
  have hsame := map_unplaced_renumber cmds
  have hnumbers {left right plain : List Command}
      (hsame : left.map Command.unplaced = right.map Command.unplaced)
      (h : Expansion (open? functions) left plain) :
      ∃ plain', Expansion (open? functions) right plain' ∧ renumber plain = renumber plain' := by
    obtain ⟨plain', hplain', heq⟩ := h.unplaced (fun _ _ _ => open?_unplaced) hsame
    refine ⟨plain', hplain', (numbered_renumber _).eq_of_unplaced (numbered_renumber _) ?_⟩
    rw [map_unplaced_renumber, map_unplaced_renumber, heq]
  rw [expand_eq_ok, expand_eq_ok]
  constructor
  · rintro ⟨plain, hplain, rfl⟩
    exact hnumbers hsame hplain
  · rintro ⟨plain, hplain, rfl⟩
    exact hnumbers hsame.symm hplain

/-- The loop comes to the list that `expand` gives, and to no other one. -/
theorem comes_ok_iff : Comes functions cmds (.ok out) ↔ expand functions cmds = .ok out := by
  rw [← expand_renumber, expand_eq_ok_iff_run (numbered_renumber cmds)]
  constructor
  · rintro ⟨x, hx, hout⟩
    cases hx with
    | done hrun hdone => exact ⟨_, hrun, hdone, (Except.ok.inj hout).symm⟩
    | failed hrun hfail => cases hout
  · rintro ⟨last, hrun, hdone, rfl⟩
    exact ⟨_, .done hrun hdone, rfl⟩

theorem expansion_of_expandOne {depth : Nat} {first : List Command}
    (h : expandOne functions depth c = .ok first) : Expansion (open? functions) [c] first := by
  unfold expandOne at h
  split at h
  · rename_i hcall
    obtain ⟨body, hopen, hinner⟩ := Outcome.bind_eq_ok.1 h
    rw [← List.append_nil first]
    exact .call hcall hopen (expansion_of_expandWithin depth body first hinner) .nil
  · rename_i hother
    obtain rfl := Outcome.pure_eq_ok.1 h
    exact .other hother .nil

/-- The commands that a call stands for have one caller more than the call. -/
theorem callers_of_open? {b : Command} (h : open? functions call = .ok body) (hb : b ∈ body) :
    b.callers.length = call.callers.length + 1 := by
  obtain ⟨g, -, -, hbrings⟩ := inline_eq_ok (open?_eq_ok h).1
  obtain ⟨own, -, hfrom⟩ := hbrings b hb
  rw [hfrom.callers, List.length_append, List.length_singleton]

/-- **Working in calls to a depth fails where the loop does**, unless the depth is used up. `k`
callers are known of each command. -/
theorem run_of_expandWithin_error (depth : Nat) :
    ∀ (k : Nat) (cmds before after : List Command) (s : Rewriting) (f : Failure),
      expandWithin functions depth cmds = .error f → (∀ c ∈ cmds, k ≤ c.callers.length) →
      s.start ≤ before.length → NoCall before →
      s.cmds.map Command.unplaced = (before ++ (cmds ++ after)).map Command.unplaced →
      (f.kind = .callStackOverflow ∧ k + depth ≤ f.command.callers.length) ∨
      ∃ last e, Loop.Run (round functions) s last ∧ round functions last = some (.error e) ∧
        SameFailure e f := by
  induction depth with
  | zero =>
    intro k cmds before after s f h hcallers _ _ _
    unfold expandWithin at h
    split at h
    · rename_i c hfind
      obtain rfl := Except.error.inj h
      exact .inl ⟨rfl, hcallers c (List.mem_of_find?_eq_some hfind)⟩
    · cases h
  | succ depth ihDepth =>
    intro k cmds
    induction cmds with
    | nil =>
      intro before after s f h
      cases h
    | cons c cmds ih =>
      intro before after s f h hcallers hstart hbefore hsame
      obtain ⟨hc, hcmds⟩ := List.forall_mem_cons.1 hcallers
      rw [expandWithin_cons] at h
      rcases Outcome.bind_eq_error.1 h with hone | ⟨first, hfirst, hrest⟩
      · -- the first command is a call that fails, at once or in its body
        unfold expandOne at hone
        split at hone
        · rename_i hcall
          rcases Outcome.bind_eq_error.1 hone with hopen | ⟨body, hopen, hbody⟩
          · obtain ⟨e, hround, he⟩ := round_refused hstart hbefore hcall hsame hopen
            exact .inr ⟨s, e, .refl, hround, he⟩
          · have hdeeper : ∀ b ∈ body, k + 1 ≤ b.callers.length := by
              intro b hb
              rw [callers_of_open? hopen hb]
              omega
            obtain ⟨next, hround, hnext, hsame'⟩ := round_opened hstart hbefore hcall hsame hopen
            rcases ihDepth (k + 1) body before (cmds ++ after) next f hbody hdeeper hnext hbefore
              hsame' with ⟨hkind, hdepth⟩ | ⟨last, e, hrun, hfail, he⟩
            · exact .inl ⟨hkind, by omega⟩
            · exact .inr ⟨last, e, hrun.head hround, hfail, he⟩
        · cases hone
      · -- the loop passes what the first command stands for
        have hlater : expandWithin functions (depth + 1) cmds = .error f :=
          Outcome.bind_pure_eq_error.1 hrest
        have hexpansion := expansion_of_expandOne hfirst
        obtain ⟨middle, hrun, hstart', hmiddle⟩ :=
          run_of_expansion hexpansion before (cmds ++ after) s hstart hbefore (by simpa using hsame)
        have hdone : NoCall (before ++ first) :=
          List.forall_mem_append.2 ⟨hbefore, hexpansion.noCall⟩
        rcases ih (before ++ first) after middle f hlater hcmds hstart' hdone
          (by simpa using hmiddle) with hdeep | ⟨last, e, hrun', hfail, he⟩
        · exact .inl hdeep
        · exact .inr ⟨last, e, hrun.trans hrun', hfail, he⟩

/-- Whether a call is refused because it is brought in by 1000 calls or more. -/
def TooDeep (f : Failure) : Prop :=
  f.kind = .callStackOverflow ∧ 1000 ≤ f.command.callers.length

/-- What the calls of a list of commands come to where `expand` fails: the loop fails alike, unless
a call is too deep. -/
theorem comes_of_expand_error {f : Failure} (h : expand functions cmds = .error f) :
    TooDeep f ∨ ∃ e, Comes functions cmds (.error e) ∧ SameFailure e f := by
  have hwithin : expandWithin functions (maxDepth functions) cmds = .error f :=
    Outcome.bind_pure_eq_error.1 h
  have hsame :
      (renumber cmds).map Command.unplaced = ([] ++ (cmds ++ [])).map Command.unplaced := by
    rw [map_unplaced_renumber, List.append_nil, List.nil_append]
  rcases run_of_expandWithin_error _ 0 cmds [] [] ⟨0, renumber cmds⟩ f hwithin
    (fun _ _ => Nat.zero_le _) (Nat.le_refl 0) (fun _ hc => absurd hc List.not_mem_nil) hsame with
    ⟨hkind, hdepth⟩ | ⟨last, e, hrun, hfail, hsame⟩
  · have hbound : 1000 ≤ 0 + maxDepth functions := by
      unfold maxDepth
      omega
    exact .inl ⟨hkind, hbound.trans hdepth⟩
  · exact .inr ⟨e, ⟨_, .failed hrun hfail, rfl⟩, hsame⟩

/-- **Calls are macros.** Where the loop over numbered commands ends with a list, and only there,
`expand` gives that list. No call is left in it and its commands are numbered by their places. Apart
from the numbers it is the one list to which the commands come if each call is replaced, from left
to right, by what the commands that it stands for come to, while other commands stay as they are. -/
theorem expand_replaces_calls (functions : List Function) (cmds out : List Command)
    (hnumbered : Numbered cmds) :
    (expand functions cmds = .ok out ↔ ∃ last, Loop.Run (round functions) ⟨0, cmds⟩ last ∧
      round functions last = none ∧ last.cmds = out) ∧
    (expand functions cmds = .ok out → (∀ c ∈ out, c.name ≠ ascii "CALL") ∧ Numbered out ∧
      ∃ plain, Expansion (inline functions) cmds plain ∧
        (∀ other, Expansion (inline functions) cmds other → other = plain) ∧
        out.map Command.unplaced = plain.map Command.unplaced) := by
  refine ⟨expand_eq_ok_iff_run hnumbered, fun h => ?_⟩
  obtain ⟨plain, hplain, rfl⟩ := expand_eq_ok.1 h
  have hsame := map_unplaced_renumber plain
  have hfree : NoCall (renumber plain) := hplain.noCall.unplaced hsame
  exact ⟨hfree, numbered_renumber plain, plain, hplain.inline,
    fun other hother => hplain.inline.unique hother, hsame⟩

/-- A function that calls another one. -/
def nested : List Function :=
  [⟨ascii "F", [ascii "x"],
   [Command.ofLine (ascii "Call G(x)"), Command.ofLine (ascii "Write32 x 1")]⟩,
   ⟨ascii "G", [ascii "y"], [Command.ofLine (ascii "Write32 y 2")]⟩]

def nestedCalls : List Command :=
  renumber (["Call F(A)", "Write32 B 3", "Call G(C)"].map fun line => Command.ofLine (ascii line))

def nestedResult : List Command :=
  [{ Command.ofLine (ascii "Write32 y 2") with
      args := [ascii "A", ascii "2"], position := 0, callers := [ascii "F", ascii "G"] },
   { Command.ofLine (ascii "Write32 x 1") with
      args := [ascii "A", ascii "1"], position := 1, callers := [ascii "F"] },
   { Command.ofLine (ascii "Write32 B 3") with position := 2 },
   { Command.ofLine (ascii "Write32 y 2") with
      args := [ascii "C", ascii "2"], position := 3, callers := [ascii "G"] }]

theorem expand_replaces_calls_nested :
    Numbered nestedCalls ∧ expand nested nestedCalls = .ok nestedResult ∧
      (∃ last, Loop.Run (round nested) ⟨0, nestedCalls⟩ last ∧ round nested last = none ∧
        last.cmds = nestedResult) ∧
      ∃ plain, Expansion (inline nested) nestedCalls plain ∧
        nestedResult.map Command.unplaced = plain.map Command.unplaced := by
  have hnumbered : Numbered nestedCalls := numbered_renumber _
  have hresult : expand nested nestedCalls = .ok nestedResult := rfl
  obtain ⟨hloop, hmacro⟩ := expand_replaces_calls nested nestedCalls nestedResult hnumbered
  obtain ⟨-, -, plain, hplain, -, hsame⟩ := hmacro hresult
  exact ⟨hnumbered, hresult, hloop.1 hresult, plain, hplain, hsame⟩

end Call

end CheatScript
