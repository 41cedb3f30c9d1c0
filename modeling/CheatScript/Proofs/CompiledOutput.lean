import CheatScript.Proofs.Passes
import CheatScript.Proofs.PatchLines

/-!
# Proofs: the form of compiled output

The names of commands go through the passes of compilation unchanged: what is left at the end are
names of the script, of its files and of the bodies of its functions. So a script that copies no
text is compiled to well-formed code lines, and as patch lines it has the same codes.
-/

namespace CheatScript

open Outcome

variable {files : FileTree} {cmds out : List Command}

namespace Compile

/-- The names of the flat list of commands are names of the script and of the files. -/
theorem flatten_names {P : Bytes → Prop} {t : DefinitionTable}
    (hfiles : ∀ path content, files.read path = .ok content →
      ∀ c ∈ Include.commandsOf path content, P c.name)
    (hcmds : ∀ c ∈ cmds, P c.name) (h : (flatten files cmds).result = .ok (t, out)) :
    ∀ c ∈ out, P c.name := by
  have hkept : Kept files fun c => P c.name := by
    refine ⟨?_, ?_, ?_⟩
    · intro c d hc hname _ _
      rw [hname]
      exact hc
    · intro c path content _ hopen d hd
      obtain ⟨own, hown, rfl⟩ := List.mem_map.1 hd
      exact hfiles path content (Include.open?_eq_ok hopen).2 own hown
    · intro own call hown _
      exact hown
  exact (flatten_yields hkept hcmds).1 (t, out) h

/-! ## Compiled output -/

theorem packed_lines [TextEncoder] (type : ConditionType) {codes : List Packed}
    (hplain : ∀ t out, (flatten files cmds).result = .ok (t, out) → ∀ c ∈ out, c.Plain)
    (h : (packed files cmds).result = .ok codes) :
    ∃ lines : List CodeLine, (∀ l ∈ lines, l.WellFormed) ∧
      joinTexts (codes.map (Packed.text type)) =
        Bytes.join [Byte.newline] (lines.map CodeLine.text) := by
  obtain ⟨⟨t, flat⟩, hflatten, h⟩ := Stage.bind_result_eq_ok.1 h
  obtain ⟨pieces, hrender, hpack⟩ := Stage.bind_result_eq_ok.1 h
  exact Scope.pack_lines type (renderFrom_fits (hplain t flat hflatten) hrender) hpack

/-- **Compiled output is well formed, and patch lines lose nothing.** Where neither a script nor the
files it can read copy a text into the codes, and no chain of pointers has more than `0xFFFF`
offsets, the output is well-formed code lines with newlines between them. Written as patches it has
a patch line for each of them, and reading these gives the output back. -/
theorem output_wellFormed [TextEncoder] (files : FileTree) (conditions : ConditionType)
    (path : Bytes) (source : List Bytes) (out : Bytes)
    (hscript : ∀ c ∈ Source.commands path (Source.cleanUp source), c.name ∉ rawNames)
    (hfiles : ∀ path content, files.read path = .ok content →
      ∀ c ∈ Include.commandsOf path content, c.name ∉ rawNames)
    (hchains : ∀ t cmds,
      (flatten files (Source.commands path (Source.cleanUp source))).result = .ok (t, cmds) →
        ∀ c ∈ cmds, ∀ value, Verb.ofName? c.name = some (.writePointer value) →
          ∀ chain rest, Argument.chain c.args = .ok (chain, rest) → chain.length ≤ 0xFFFF + 1)
    (h : (lines files ⟨conditions, false⟩ path source).result = .ok out) :
    ∃ codes : List CodeLine, (∀ l ∈ codes, l.WellFormed) ∧
      out = Bytes.join [Byte.newline] (codes.map CodeLine.text) ∧
      (lines files ⟨conditions, true⟩ path source).result =
        .ok (Bytes.join [Byte.newline] (codes.map fun l => Patch.line l.left l.right)) ∧
      Patch.toCodes (Bytes.join [Byte.newline] (codes.map fun l => Patch.line l.left l.right)) =
          out := by
  unfold lines at h ⊢
  cases hcmds : Source.commands path (Source.cleanUp source) with
  | nil =>
    rw [hcmds] at h
    obtain rfl := Stage.pure_result_eq_ok.1 h
    exact ⟨[], by simp, rfl, rfl, rfl⟩
  | cons c cmds =>
    rw [hcmds] at h hscript hchains
    obtain ⟨codes, hpacked, h⟩ := Stage.bind_result_eq_ok.1 h
    obtain rfl := Stage.pure_result_eq_ok.1 h
    have hplain : ∀ t out, (flatten files (c :: cmds)).result = .ok (t, out) → ∀ d ∈ out,
        d.Plain := by
      intro t out hflatten d hd
      have hname := flatten_names (P := fun name => name ∉ rawNames) hfiles hscript hflatten d hd
      exact ⟨hname, hchains t out hflatten d hd⟩
    obtain ⟨codeLines, hwell, hjoin⟩ := packed_lines conditions hplain hpacked
    refine ⟨codeLines, hwell, hjoin, ?_, ?_⟩
    · refine Stage.bind_result_eq_ok.2 ⟨codes, hpacked, Stage.pure_result_eq_ok.2 ?_⟩
      have hpatches := Patch.ofCodes_lines hwell
      rw [← hjoin] at hpatches
      exact hpatches
    · have hback := Patch.toCodes_lines hwell
      rw [← hjoin] at hback
      exact hback

end Compile

/-! ## A script with a file -/

theorem Argument.chainFrom_length {acc : Word} {tokens rest : List Bytes} {chain : List Word}
    (h : chainFrom acc tokens = .ok (chain, rest)) : chain.length ≤ tokens.length + 1 := by
  induction tokens generalizing acc chain with
  | nil =>
    obtain ⟨rfl, -⟩ := Prod.mk.inj (Except.ok.inj h)
    rfl
  | cons t tokens ih =>
    unfold chainFrom at h
    split at h
    · obtain ⟨v, -, h⟩ := bind_eq_ok.1 h
      obtain ⟨⟨others, _⟩, hothers, h⟩ := bind_eq_ok.1 h
      obtain ⟨rfl, rfl⟩ := Prod.mk.inj (pure_eq_ok.1 h)
      exact Nat.succ_le_succ (ih hothers)
    · split at h
      · obtain ⟨v, -, h⟩ := bind_eq_ok.1 h
        exact Nat.le_succ_of_le (ih h)
      · obtain ⟨rfl, -⟩ := Prod.mk.inj (Except.ok.inj h)
        exact Nat.succ_le_succ (Nat.zero_le _)

/-- A chain of pointers has no more elements than tokens. -/
theorem Argument.chain_length {tokens rest : List Bytes} {chain : List Word}
    (h : Argument.chain tokens = .ok (chain, rest)) : chain.length ≤ tokens.length := by
  cases tokens with
  | nil => cases h
  | cons t tokens =>
    obtain ⟨base, -, h⟩ := bind_eq_ok.1 h
    obtain ⟨⟨all, after⟩, hall, h⟩ := bind_eq_ok.1 h
    have hlen := chainFrom_length hall
    have hkept : (if after.isEmpty && all.getLast? == some 0 then all.dropLast else all).length ≤
        all.length := by
      split
      · rw [List.length_dropLast]
        exact Nat.sub_le _ _
      · exact Nat.le_refl _
    simp only at h
    generalize (if after.isEmpty && all.getLast? == some 0 then all.dropLast else all) =
      kept at h hkept
    split at h
    · cases h
    · obtain ⟨rfl, -⟩ := Prod.mk.inj (pure_eq_ok.1 h)
      exact Nat.le_trans hkept hlen

/-- A content that is read is that of a file. -/
theorem FileTree.read_eq_ok {t : FileTree} {path content : Bytes} (h : t.read path = .ok content) :
    ∃ place, t.files.lookup place = some content :=
  ⟨t.absolute path, lookup_of_read h⟩

namespace Compile

/-- A file with one command. -/
def sampleFiles : FileTree where
  here := [ascii "cheats"]
  files := [([ascii "cheats", ascii "lives.txt"], ascii "Write8 0x10 0x1FF")]

/-- A script that includes it and writes through a pointer under a condition. -/
def sampleLines : List Bytes :=
  ["Include \"lives.txt\"", "Set base 0x100", "If 0x2000 =: 5", "WritePointer32 base,0x8,0xC 7",
    "EndIf"].map ascii

def sampleOutput : Bytes :=
  ascii
    "00000010 000000FF\nE0030005 00002000\n60000100 00000007\n00020002 00000008\n0000000C 00000000"

theorem sampleFiles_names : ∀ path content, sampleFiles.read path = .ok content →
    ∀ c ∈ Include.commandsOf path content, c.name ∉ rawNames := by
  intro path content hread c hc
  obtain ⟨place, hplace⟩ := FileTree.read_eq_ok hread
  obtain ⟨before, after, hentries, -⟩ := List.lookup_eq_some_iff.1 hplace
  have hentry : (place, content) ∈ sampleFiles.files := by
    rw [hentries]
    exact List.mem_append_right _ List.mem_cons_self
  obtain ⟨-, rfl⟩ := Prod.mk.inj (List.mem_singleton.1 hentry)
  have hnames : (Source.commands path (Source.cleanUp (Source.linesOf
      (ascii "Write8 0x10 0x1FF")))).map (·.name) = [ascii "WRITE8"] := rfl
  unfold Include.commandsOf at hc
  simp only at hc
  split at hc
  · -- a symbol file holds definitions only
    obtain ⟨d, -, hd⟩ := List.mem_filterMap.1 hc
    unfold Include.symbol? at hd
    split at hd
    · cases hd
    · split at hd
      · cases hd
      · obtain rfl := Option.some.inj hd
        exact (by decide : ascii "SET" ∉ rawNames)
  · have hname := List.mem_map_of_mem (f := (·.name)) hc
    rw [hnames, List.mem_singleton] at hname
    rw [hname]
    decide

set_option maxRecDepth 8000 in
theorem output_wellFormed_sample :
    (lines sampleFiles ⟨.e, false⟩ (ascii "main.txt") sampleLines).result = .ok sampleOutput ∧
    ∃ codes : List CodeLine, (∀ l ∈ codes, l.WellFormed) ∧
      sampleOutput = Bytes.join [Byte.newline] (codes.map CodeLine.text) ∧
      (lines sampleFiles ⟨.e, true⟩ (ascii "main.txt") sampleLines).result =
        .ok (Bytes.join [Byte.newline] (codes.map fun l => Patch.line l.left l.right)) ∧
      Patch.toCodes (Bytes.join [Byte.newline] (codes.map fun l => Patch.line l.left l.right)) =
        sampleOutput := by
  have hchains : ∀ t cmds, (flatten sampleFiles
      (Source.commands (ascii "main.txt") (Source.cleanUp sampleLines))).result = .ok (t, cmds) →
        ∀ c ∈ cmds, c.args.length ≤ 5 := by
    have hall : (flatten sampleFiles (Source.commands (ascii "main.txt")
        (Source.cleanUp sampleLines))).result.toOption.all
          (fun out => out.2.all fun c => decide (c.args.length ≤ 5)) = true := rfl
    intro t cmds h c hc
    rw [h] at hall
    simpa using List.all_eq_true.1 hall c hc
  refine ⟨rfl, output_wellFormed _ _ _ _ _ (by decide) sampleFiles_names ?_ rfl⟩
  intro t cmds h c hc value _ chain rest hchain
  have hargs := hchains t cmds h c hc
  have hlen := Argument.chain_length hchain
  omega

end Compile

end CheatScript
