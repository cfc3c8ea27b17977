/-
`MBArkFirewall::initialize` on a file of well-formed rules: the trees in use hold the endpoints of
all rules, each once and in order, exactly when every `add` on the two address trees completes. Ports
and protocols are too few for an `add` to fail.
-/
import Embark.Gateway.Loader
import Embark.Gateway.RuleFile
import Embark.Ope.Height
import Mathlib.Data.Finset.Sort

namespace Embark

open RuleEncryptor (compatible compatible_strictMono)
open ScapegoatTree (Built RunFits)

/-! ## Files of rules -/

theorem Rule.IsText.noLineEnd {r : Rule} {line : List Char} (h : r.IsText line) : '\n' ∉ line ∧ '\r' ∉ line := by
  obtain ⟨s, d, sp, dp, p, m, further, hs, hd, hsp, hdp, hp, hm, hfurther, rfl⟩ := h
  have hend : ∀ c, c.isDigit = false → hexDigit c = none → c ∉ ['@', '.', '/', ' ', ':', 'x', '\t'] →
      c ∉ further →
      c ∉ '@' :: s ++
        '\t' :: (d ++ '\t' :: (sp ++ '\t' :: (dp ++ '\t' :: ((p ++ '/' :: m) ++ '\t' :: further)))) := by
    intro c hdigit hhex hsep hf
    simp only [List.mem_cons, List.not_mem_nil, or_false, not_or] at hsep
    obtain ⟨hat, hdot, hslash, hspace, hcolon, hx, htab⟩ := hsep
    simp only [List.mem_append, List.mem_cons, not_or]
    exact ⟨⟨hat, hs.notMem hdigit hdot hslash⟩, htab, hd.notMem hdigit hdot hslash, htab,
      hsp.notMem hdigit hspace hcolon, htab, hdp.notMem hdigit hspace hcolon, htab,
      ⟨hp.notMem hhex hx, hslash, hm.notMem hhex hx⟩, htab, hf⟩
  rcases hfurther with rfl | ⟨f, ⟨-, hnl, hcr⟩, rfl⟩
  · exact ⟨hend '\n' rfl rfl (by decide) List.not_mem_nil, hend '\r' rfl rfl (by decide) List.not_mem_nil⟩
  · exact ⟨hend '\n' rfl rfl (by decide) (by simp [hnl]), hend '\r' rfl rfl (by decide) (by simp [hcr])⟩

/-- The file holds a line of every rule, with a line feed behind each that only the last may lack,
and its reads succeed, however they cut it. -/
structure RuleFile.Holds (file : RuleFile) (rules : List Rule) : Prop where
  opened : file.opened = true
  succeed : ReadBuffer.error ∉ file.reads
  text : ∃ lines, List.Forall₂ Rule.IsText rules lines ∧
    (RuleFile.text file.reads = lines.flatMap (· ++ ['\n']) ∨
      RuleFile.text file.reads ++ ['\n'] = lines.flatMap (· ++ ['\n']))

/-- A line as `read_line` returns it. -/
def Rule.IsRead (r : Rule) (l : List Char) : Prop := ∃ line eol, r.IsText line ∧ '\t' ∉ eol ∧ l = line ++ eol

theorem length_le_flatMap (ls : List (List Char)) : ls.length ≤ (ls.flatMap (· ++ ['\n'])).length := by
  induction ls with
  | nil => exact Nat.zero_le _
  | cons l ls ih =>
    rw [List.flatMap_cons, List.length_append, List.length_append, List.length_cons]
    simp only [List.length_cons, List.length_nil]
    omega

theorem Forall₂.noLineEnd {rules : List Rule} {lines : List (List Char)}
    (h : List.Forall₂ Rule.IsText rules lines) :
    ∀ l ∈ lines, '\n' ∉ l ∧ '\r' ∉ l := by
  induction h with
  | nil => exact fun l hl => absurd hl List.not_mem_nil
  | cons hr _ ih =>
    intro l hl
    rcases List.mem_cons.1 hl with rfl | hl
    · exact hr.noLineEnd
    · exact ih l hl

theorem Forall₂.isRead {rules : List Rule} {lines : List (List Char)} (h : List.Forall₂ Rule.IsText rules lines) :
    List.Forall₂ Rule.IsRead rules (lines.map (· ++ ['\n'])) := by
  induction h with
  | nil => exact .nil
  | cons hr _ ih => exact .cons ⟨_, ['\n'], hr, by decide, rfl⟩ ih

namespace RuleFile

variable {file : RuleFile} {rules : List Rule}

/-- A file that can be opened and starts with a character. -/
theorem start_of_text (ho : file.opened = true) (hs : ReadBuffer.error ∉ file.reads) (ht : text file.reads ≠ []) :
    ∃ ff, file.start = some ff ∧ ff.Reads (text file.reads) := by
  obtain ⟨opened, reads⟩ := file
  obtain rfl : opened = true := ho
  cases reads with
  | nil => exact absurd rfl ht
  | cons r reads =>
    rw [List.mem_cons, not_or] at hs
    cases r with
    | error => exact absurd rfl hs.1
    | chars c s => exact ⟨_, rfl, rfl, hs.2, rfl⟩

/-- The lines of a file: those that a line feed ends, and what is left where it is anything. -/
theorem lines_of_text (ho : file.opened = true) (hs : ReadBuffer.error ∉ file.reads) {ls : List (List Char)}
    {last : List Char} (hls : ∀ l ∈ ls, '\n' ∉ l ∧ '\r' ∉ l) (hlast : '\n' ∉ last ∧ '\r' ∉ last)
    (ht : text file.reads = ls.flatMap (· ++ ['\n']) ++ last) (hne : text file.reads ≠ []) :
    ∃ ff, file.start = some ff ∧ ff.lines ((text file.reads).length + 1) =
      some (ls.map (· ++ ['\n']) ++ if last = [] then [] else [last]) := by
  obtain ⟨ff, hff, hreads⟩ := start_of_text ho hs hne
  have hlen := length_le_flatMap ls
  have hfuel : ls.length + 1 ≤ (text file.reads).length + 1 := by
    rw [ht, List.length_append]
    omega
  exact ⟨ff, hff, FromFile.Reads.lines last hls hlast hfuel (ht ▸ hreads)⟩

/-- The last of the lines is a line of the last of the rules. -/
theorem forall₂_append_singleton {ls : List (List Char)} {last : List Char}
    (h : List.Forall₂ Rule.IsText rules (ls ++ [last])) :
    ∃ rs r, rules = rs ++ [r] ∧ List.Forall₂ Rule.IsText rs ls ∧ r.IsText last := by
  have htake := List.forall₂_take_append rules ls [last] h
  have hdrop := List.forall₂_drop_append rules ls [last] h
  obtain ⟨r, rest, hr, hnil, hrest⟩ := List.forall₂_cons_right_iff.1 hdrop
  rw [List.forall₂_nil_right_iff] at hnil
  rw [hnil] at hrest
  exact ⟨_, r, by rw [← hrest, List.take_append_drop], htake, hr⟩

/-- A file of at least one rule is read line by line. -/
theorem Holds.lines (h : file.Holds rules) (hne : rules ≠ []) : ∃ ff read, file.start = some ff ∧
    ff.lines ((RuleFile.text file.reads).length + 1) = some read ∧ List.Forall₂ Rule.IsRead rules read := by
  obtain ⟨lines, hlines, htext⟩ := h.text
  have hlne : lines ≠ [] := by
    rintro rfl
    exact hne (List.forall₂_nil_right_iff.1 hlines)
  rcases htext with htext | htext
  · have htne : RuleFile.text file.reads ≠ [] := by
      intro he
      have hlen := length_le_flatMap lines
      rw [← htext, he, List.length_nil, Nat.le_zero_eq, List.length_eq_zero_iff] at hlen
      exact hlne hlen
    obtain ⟨ff, hff, hread⟩ := lines_of_text h.opened h.succeed (Forall₂.noLineEnd hlines)
      ⟨List.not_mem_nil, List.not_mem_nil⟩ (by rw [htext, List.append_nil]) htne
    rw [if_pos rfl, List.append_nil] at hread
    exact ⟨ff, _, hff, hread, Forall₂.isRead hlines⟩
  · -- the last line lacks its line feed
    obtain ⟨ls, last, rfl⟩ : ∃ ls last, lines = ls ++ [last] :=
      ⟨_, _, (List.dropLast_concat_getLast hlne).symm⟩
    rw [List.flatMap_append, List.flatMap_singleton, ← List.append_assoc] at htext
    obtain ⟨htext, -⟩ := List.append_inj' htext rfl
    obtain ⟨rs, r, rfl, hls, hlast⟩ := forall₂_append_singleton hlines
    have hlastne : last ≠ [] := by
      obtain ⟨_, _, _, _, _, _, _, -, -, -, -, -, -, -, rfl⟩ := hlast
      simp
    have htne : RuleFile.text file.reads ≠ [] := by
      rw [htext]
      exact fun he => hlastne (List.append_eq_nil_iff.1 he).2
    obtain ⟨ff, hff, hread⟩ := lines_of_text h.opened h.succeed (Forall₂.noLineEnd hls) hlast.noLineEnd htext htne
    rw [if_neg hlastne] at hread
    exact ⟨ff, _, hff, hread,
      List.rel_append (Forall₂.isRead hls) (.cons ⟨last, [], hlast, by decide, (List.append_nil _).symm⟩ .nil)⟩

end RuleFile

/-! ## Runs on an empty tree -/

section Runs

variable {α β : Type} [LinearOrder α] [LinearOrder β]

/-- Relabelled keys complete when the keys themselves do. -/
theorem exists_built_map_iff {f : α → β} (hf : StrictMono f) {xs : List α} :
    (∃ t, Built (xs.map f) t) ↔ ∃ t, Built xs t := by
  have hmap := ScapegoatTree.addAll_map hf xs .empty
  rw [show (ScapegoatTree.empty : ScapegoatTree α).map f = .empty from rfl] at hmap
  unfold Built
  rw [hmap]
  constructor
  · rintro ⟨_, ht⟩
    obtain ⟨t, ht, -⟩ := Option.map_eq_some_iff.1 ht
    exact ⟨t, ht⟩
  · rintro ⟨t, ht⟩
    exact ⟨t.map f, by rw [ht]; rfl⟩

/-- A tree of `w`-bit keys has at most `2 ^ w` nodes. -/
theorem size_le_two_pow {w : Nat} {t : ScapegoatTree (BitVec w)} (h : t.WF) : t.r.size ≤ 2 ^ w := by
  have hnodup : (t.r.keys.map BitVec.toNat).Nodup :=
    List.Nodup.map (fun _ _ => BitVec.eq_of_toNat_eq) (h.ordered.imp ne_of_lt)
  have hsub : (t.r.keys.map BitVec.toNat).Subperm (List.range (2 ^ w)) := hnodup.subperm fun n hn => by
    obtain ⟨x, -, rfl⟩ := List.mem_map.1 hn
    exact List.mem_range.2 x.isLt
  have hlen := hsub.length_le
  rwa [List.length_map, BinTree.length_keys, List.length_range] at hlen

/-- Keys of at most 16 bits are too few for a search that does not fit. -/
theorem runFits_of_width {w : Nat} (hw : w ≤ 16) (xs : List (BitVec w)) : RunFits xs :=
  ScapegoatTree.runFits_of_size fun t ys _ _ ht => by
    have hsize := size_le_two_pow (ScapegoatTree.built_wf ht)
    have hpow : 2 ^ w ≤ 2 ^ 16 := Nat.pow_le_pow_right (by decide) hw
    omega

/-- What a completed run leaves in the tree. -/
theorem keys_eq_sort {xs : List α} {t : ScapegoatTree α} (h : Built xs t) : t.r.keys = xs.toFinset.sort := by
  have hw := ScapegoatTree.built_wf h
  have hset : xs.toFinset = t.r.keys.toFinset := by
    ext y
    rw [List.mem_toFinset, List.mem_toFinset, ScapegoatTree.mem_built h]
  rw [hset]
  exact ((List.toFinset_sort _ (hw.ordered.imp ne_of_lt)).2 (hw.ordered.imp le_of_lt)).symm

end Runs

/-! ## The loaded element -/

/-- The endpoints of all rules, in the order of the file. -/
def denoted (rules : List Rule) : Endpoints := .concat (rules.map Rule.endpoints)

namespace MBArkFirewall

/-- Every tree is empty, with both counters zero. -/
structure Unloaded (fw : MBArkFirewall) : Prop where
  srcAddr : fw.srcAddrTree.toScapegoatTree = .empty
  dstAddr : fw.dstAddrTree.toScapegoatTree = .empty
  srcAddrV4 : fw.srcAddrTreeV4.toScapegoatTree = .empty
  dstAddrV4 : fw.dstAddrTreeV4.toScapegoatTree = .empty
  srcPort : fw.srcPortTree.toScapegoatTree = .empty
  dstPort : fw.dstPortTree.toScapegoatTree = .empty
  proto : fw.protoTree.toScapegoatTree = .empty

/-- The in-order keys of every tree in use are the different endpoints of the rules in increasing
order; without `V4` an address is a 128-bit number with 96 zeros above it. -/
structure StoresExactly (rules : List Rule) (fw : MBArkFirewall) : Prop where
  srcAddrV4 : fw.v4 = true → fw.srcAddrTreeV4.r.keys = (denoted rules).srcAddr.toFinset.sort
  dstAddrV4 : fw.v4 = true → fw.dstAddrTreeV4.r.keys = (denoted rules).dstAddr.toFinset.sort
  srcAddr :
    fw.v4 = false → fw.srcAddrTree.r.keys = ((denoted rules).srcAddr.map fun x => x.setWidth 128).toFinset.sort
  dstAddr :
    fw.v4 = false → fw.dstAddrTree.r.keys = ((denoted rules).dstAddr.map fun x => x.setWidth 128).toFinset.sort
  srcPort : fw.srcPortTree.r.keys = (denoted rules).srcPort.toFinset.sort
  dstPort : fw.dstPortTree.r.keys = (denoted rules).dstPort.toFinset.sort
  proto : fw.protoTree.r.keys = (denoted rules).proto.toFinset.sort

variable {queryIp : List Char → Option (BitVec 32)} {fw fw' : MBArkFirewall} {rules : List Rule} {file : RuleFile}

theorem built_of_addAll {α : Type} [LinearOrder α] {t t' : OPETree α} {xs : List α}
    (ht : t.toScapegoatTree = .empty) (h : t.addAll xs = some t') : Built xs t'.toScapegoatTree := by
  have hadd := (OPETree.addAll_eq_some.1 h).1
  rwa [ht] at hadd

theorem exists_addAll {α : Type} [LinearOrder α] {t : OPETree α} {xs : List α} (ht : t.toScapegoatTree = .empty)
    (h : ∃ s, Built xs s) : ∃ t', t.addAll xs = some t' := by
  obtain ⟨s, hs⟩ := h
  exact ⟨{ t with toScapegoatTree := s }, OPETree.addAll_eq_some.2 ⟨by rw [ht]; exact hs, rfl⟩⟩

theorem keys_of_addAll {α : Type} [LinearOrder α] {t t' : OPETree α} {xs ys : List α}
    (ht : t.toScapegoatTree = .empty) (h : t.addAll ys = some t') (hys : ys = xs) : t'.r.keys = xs.toFinset.sort := by
  rw [hys] at h
  exact keys_eq_sort (built_of_addAll ht h)

theorem keysV4_of_v4 (h : fw.v4 = true) (addrs : List (BitVec 32)) : fw.keysV4 addrs = addrs := if_pos h

theorem keysV6_of_v6 (h : fw.v4 = false) (addrs : List (BitVec 32)) : fw.keysV6 addrs = addrs.map compatible := by
  unfold keysV6
  rw [h, if_neg Bool.false_ne_true]

/-- Whatever is added to an empty element is stored. -/
theorem storesExactly_of_adds (hempty : fw.Unloaded) (h : Adds (denoted rules) fw fw') : StoresExactly rules fw' := by
  have hflag := h.v4
  constructor
  · intro hv
    exact keys_of_addAll hempty.srcAddrV4 h.srcAddrV4 (keysV4_of_v4 (hflag ▸ hv) _)
  · intro hv
    exact keys_of_addAll hempty.dstAddrV4 h.dstAddrV4 (keysV4_of_v4 (hflag ▸ hv) _)
  · intro hv
    exact keys_of_addAll hempty.srcAddr h.srcAddr (keysV6_of_v6 (hflag ▸ hv) _)
  · intro hv
    exact keys_of_addAll hempty.dstAddr h.dstAddr (keysV6_of_v6 (hflag ▸ hv) _)
  · exact keys_of_addAll hempty.srcPort h.srcPort rfl
  · exact keys_of_addAll hempty.dstPort h.dstPort rfl
  · exact keys_of_addAll hempty.proto h.proto rfl

/-- Every rule adds two keys to each tree of addresses and ports, and one protocol. -/
theorem length_denoted (rules : List Rule) : (denoted rules).srcAddr.length = 2 * rules.length ∧
    (denoted rules).dstAddr.length = 2 * rules.length ∧ (denoted rules).srcPort.length = 2 * rules.length ∧
    (denoted rules).dstPort.length = 2 * rules.length ∧ (denoted rules).proto.length = rules.length := by
  induction rules with
  | nil => exact ⟨rfl, rfl, rfl, rfl, rfl⟩
  | cons r rules ih =>
    obtain ⟨h1, h2, h3, h4, h5⟩ := ih
    have hcons : denoted (r :: rules) = r.endpoints.append (denoted rules) := rfl
    rw [hcons]
    simp only [Endpoints.append, Rule.endpoints, List.length_append, List.length_cons, List.length_nil, h1, h2,
      h3, h4, h5]
    omega

/-- The endpoints of fewer than `2 ^ 30` rules can be added to an empty element exactly when the
search of every call on the two address trees fits. -/
theorem exists_adds_iff (hempty : fw.Unloaded) (hlen : rules.length < 2 ^ 30) :
    (∃ fw', Adds (denoted rules) fw fw') ↔ RunFits (denoted rules).srcAddr ∧ RunFits (denoted rules).dstAddr := by
  obtain ⟨h1, h2, h3, h4, h5⟩ := length_denoted rules
  rw [← ScapegoatTree.exists_built_iff (by omega), ← ScapegoatTree.exists_built_iff (by omega)]
  have hsport : ∃ s, Built (denoted rules).srcPort s :=
    (ScapegoatTree.exists_built_iff (by omega)).2 (runFits_of_width le_rfl _)
  have hdport : ∃ s, Built (denoted rules).dstPort s :=
    (ScapegoatTree.exists_built_iff (by omega)).2 (runFits_of_width le_rfl _)
  have hproto : ∃ s, Built (denoted rules).proto s :=
    (ScapegoatTree.exists_built_iff (by omega)).2 (runFits_of_width (by decide) _)
  have hnil : ∀ {α : Type} [LinearOrder α], ∃ s, Built ([] : List α) s := ⟨_, ScapegoatTree.built_nil⟩
  have hiff : ∀ xs : List (BitVec 32), (∃ s, Built (fw.keysV4 xs) s) ∧ (∃ s, Built (fw.keysV6 xs) s) ↔
      ∃ s, Built xs s := fun xs => by
    unfold keysV4 keysV6
    split_ifs
    · exact and_iff_left hnil
    · exact (and_iff_right hnil).trans (exists_built_map_iff compatible_strictMono)
  rw [← hiff (denoted rules).srcAddr, ← hiff (denoted rules).dstAddr]
  constructor
  · rintro ⟨fw', h⟩
    exact ⟨⟨⟨_, built_of_addAll hempty.srcAddrV4 h.srcAddrV4⟩, _, built_of_addAll hempty.srcAddr h.srcAddr⟩,
      ⟨_, built_of_addAll hempty.dstAddrV4 h.dstAddrV4⟩, _, built_of_addAll hempty.dstAddr h.dstAddr⟩
  · rintro ⟨⟨hs4, hs6⟩, hd4, hd6⟩
    obtain ⟨st, hst⟩ := exists_addAll hempty.srcAddr hs6
    obtain ⟨dt, hdt⟩ := exists_addAll hempty.dstAddr hd6
    obtain ⟨st4, hst4⟩ := exists_addAll hempty.srcAddrV4 hs4
    obtain ⟨dt4, hdt4⟩ := exists_addAll hempty.dstAddrV4 hd4
    obtain ⟨sp, hsp⟩ := exists_addAll hempty.srcPort hsport
    obtain ⟨dp, hdp⟩ := exists_addAll hempty.dstPort hdport
    obtain ⟨pt, hpt⟩ := exists_addAll hempty.proto hproto
    exact ⟨⟨st, dt, st4, dt4, sp, dp, pt, fw.v4, fw.enable, fw.stateful⟩,
      ⟨hst, hdt, hst4, hdt4, hsp, hdp, hpt, rfl, rfl, rfl⟩⟩

/-- The loader reads the endpoints that the rules denote. -/
theorem insertions_eq {read : List (List Char)} (h : List.Forall₂ Rule.IsRead rules read) :
    insertions queryIp read = some (denoted rules) := by
  induction h with
  | nil => rfl
  | cons hr _ ih =>
    obtain ⟨line, eol, hline, heol, rfl⟩ := hr
    rw [insertions_cons, hline.lineEndpoints heol, ih]
    rfl

/-- `initialize` on a file of at least one rule. -/
theorem initializeFile_eq_some_iff (hfile : file.Holds rules) (hne : rules ≠ []) {ret : Int} :
    fw.initializeFile queryIp file = some (ret, fw') ↔ ret = 0 ∧ Adds (denoted rules) fw fw' := by
  obtain ⟨ff, read, hstart, hlines, hread⟩ := hfile.lines hne
  unfold initializeFile
  rw [hstart]
  simp only [hlines, Option.bind_eq_bind, Option.bind_some, Option.bind_eq_some_iff, Option.pure_def, Option.some.injEq,
    Prod.mk.injEq, initializeFrom_eq_some_iff, insertions_eq hread, exists_eq_left']
  constructor
  · rintro ⟨_, h, rfl, rfl⟩
    exact ⟨rfl, h⟩
  · rintro ⟨rfl, h⟩
    exact ⟨fw', h, rfl, rfl⟩

/-- Loading fewer than `2 ^ 30` well-formed rules into an empty element stores exactly their
endpoints if and only if the search of every call on the two address trees fits an `int`. -/
theorem initializeFile_storesExactly_iff (hfile : file.Holds rules) (hlen : rules.length < 2 ^ 30)
    (hempty : fw.Unloaded) :
    (∃ ret fw', fw.initializeFile queryIp file = some (ret, fw') ∧ fw'.v4 = fw.v4 ∧ StoresExactly rules fw') ↔
      RunFits (denoted rules).srcAddr ∧ RunFits (denoted rules).dstAddr := by
  rw [← exists_adds_iff hempty hlen]
  rcases eq_or_ne rules [] with rfl | hne
  · -- the empty file is refused, and nothing is to be stored
    have hadds : Adds (denoted []) fw fw := adds_empty.2 rfl
    refine iff_of_true ⟨-1, fw, ?_, rfl, storesExactly_of_adds hempty hadds⟩ ⟨fw, hadds⟩
    obtain ⟨lines, hlines, htext⟩ := hfile.text
    rw [List.forall₂_nil_left_iff] at hlines
    rw [hlines] at htext
    have htext : RuleFile.text file.reads = [] := by simpa using htext
    have hstart : file.start = none := by
      unfold RuleFile.start
      split
      · rename_i hreads
        rw [hreads] at htext
        simp [RuleFile.text] at htext
      · rfl
    unfold initializeFile
    rw [hstart]
  · simp only [initializeFile_eq_some_iff hfile hne]
    constructor
    · rintro ⟨ret, fw', ⟨-, h⟩, -⟩
      exact ⟨fw', h⟩
    · rintro ⟨fw', h⟩
      exact ⟨0, fw', ⟨rfl, h⟩, h.v4, storesExactly_of_adds hempty h⟩

/-! ## Files -/

/-- A file that is read at once. -/
def ruleFile (s : List Char) : RuleFile :=
  ⟨true, match s with
    | [] => []
    | c :: s => [.chars c s]⟩

theorem holds_ruleFile (rules : List Rule) : (ruleFile (rules.flatMap fun r => r.text ++ ['\n'])).Holds rules := by
  have htext : ∀ s : List Char, RuleFile.text (ruleFile s).reads = s := fun s => by
    cases s with
    | nil => rfl
    | cons c s => exact List.append_nil _
  refine ⟨rfl, ?_, rules.map Rule.text, ?_, .inl ?_⟩
  · cases rules.flatMap fun r => r.text ++ ['\n'] with
    | nil => exact List.not_mem_nil
    | cons c s => simp [ruleFile]
  · rw [List.forall₂_map_right_iff, List.forall₂_same]
    exact fun r _ => r.isText_text
  · rw [htext, List.flatMap_map]

/-- The rule for one source address: to 10.0.0.1 by TCP, with any ports. -/
def hostRule (x : BitVec 32) : Rule where
  src := ⟨.ofHost x, 32, le_rfl⟩
  dst := ⟨⟨10, 0, 0, 1⟩, 32, le_rfl⟩
  srcPorts := ⟨0, 65535⟩
  dstPorts := ⟨0, 65535⟩
  proto := 6
  protoMask := 0xff

theorem srcAddr_denoted_hostRule (xs : List (BitVec 32)) :
    (denoted (xs.map hostRule)).srcAddr = xs.flatMap fun x => [x, x] := by
  induction xs with
  | nil => rfl
  | cons x xs ih =>
    have hfirst : (hostRule x).src.first = x := (Block.first_full _).trans (Quad.host_ofHost x)
    have hlast : (hostRule x).src.last = x := (Block.last_full _).trans (Quad.host_ofHost x)
    rw [List.flatMap_cons, ← ih]
    show [(hostRule x).src.first, (hostRule x).src.last] ++ _ = _
    rw [hfirst, hlast]
    rfl

theorem unloaded_unloaded : Unloaded RuleEncryptor.unloaded := ⟨rfl, rfl, rfl, rfl, rfl, rfl, rfl⟩

theorem initializeFile_storesExactly_hostRule :
    ∃ ret fw', RuleEncryptor.unloaded.initializeFile (fun _ => none)
        (ruleFile ([hostRule 0x0a000002].flatMap fun r => r.text ++ ['\n'])) = some (ret, fw') ∧
      fw'.v4 = false ∧ StoresExactly [hostRule 0x0a000002] fw' := by
  obtain ⟨hsrc, hdst, -⟩ := length_denoted [hostRule 0x0a000002]
  refine (initializeFile_storesExactly_iff (holds_ruleFile _) (by decide) unloaded_unloaded).2 ⟨?_, ?_⟩
  · exact ScapegoatTree.runFits_of_short (by rw [hsrc]; decide)
  · exact ScapegoatTree.runFits_of_short (by rw [hdst]; decide)

/-- One rule for every address of the run whose last `add` overflows. -/
def deepRules : List Rule := OPETree.deepRun.map hostRule

def deepFile : RuleFile := ruleFile (deepRules.flatMap fun r => r.text ++ ['\n'])

/-- Fewer than `2 ^ 30` rules, and loading them does not complete. -/
theorem deepFile_fails : deepRules.length < 2 ^ 30 ∧ deepFile.Holds deepRules ∧ Unloaded RuleEncryptor.unloaded ∧
    ¬ ∃ ret fw', RuleEncryptor.unloaded.initializeFile (fun _ => none) deepFile = some (ret, fw') ∧
      StoresExactly deepRules fw' := by
  have hlen : deepRules.length < 2 ^ 30 := by
    unfold deepRules
    rw [List.length_map, OPETree.length_deepRun]
    decide
  have hne : deepRules ≠ [] := fun he => by
    have hzero := congrArg List.length he
    unfold deepRules at hzero
    rw [List.length_map, OPETree.length_deepRun] at hzero
    cases hzero
  refine ⟨hlen, holds_ruleFile _, unloaded_unloaded, ?_⟩
  rintro ⟨ret, fw', hload, -⟩
  obtain ⟨-, hadds⟩ := (initializeFile_eq_some_iff (holds_ruleFile _) hne).1 hload
  have hfits := ((exists_adds_iff unloaded_unloaded hlen).1 ⟨fw', hadds⟩).1
  have hsrc : (denoted deepRules).srcAddr = OPETree.deepRun.flatMap fun x => [x, x] := srcAddr_denoted_hostRule _
  have hcount := (length_denoted deepRules).1
  rw [hsrc] at hfits hcount
  -- the ends of a host's prefix are one key
  have hbuilt := (ScapegoatTree.exists_built_iff (by omega)).2 hfits
  unfold Built at hbuilt
  rw [ScapegoatTree.addAll_twice (ScapegoatTree.wf_iff.1 ScapegoatTree.empty_wf)] at hbuilt
  exact OPETree.deepRun_not_built hbuilt

end MBArkFirewall

end Embark
