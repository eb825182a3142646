import CS450.Shell.Run

/-!
# Sequences and parallel groups

A line `G₁;G₂;…` of groups of commands separated by `&` is run group by group. Whatever the order in
which the processes are scheduled, a command of a group is run only when every command of the group
before has terminated, the commands of one group are run without waiting for each other, and the
process that runs the line exits only when all commands have terminated.

## Main results

* `order_sequenceTree`: a command has to wait exactly for those of earlier groups
* `line_runs_in_order`: how the processes of a line run its commands
* `execs_named_iff`: when `execvp` is called with a program
-/

namespace Hwsh

open Process Transition

/-- The commands of a list of an `&` node that starts at `a`. -/
def chainPtrs (a : List Field) : List (List Char) → List Ptr
  | [] => []
  | p :: ps => ⟨a ++ [.cmd], .exec (words p)⟩ :: chainPtrs (a ++ [.next]) ps

/-- The commands of a group whose tree stands at `a`. -/
def groupPtrs (a : List Field) : List (List Char) → List Ptr
  | [p] => [⟨a, .exec (words p)⟩]
  | ps => chainPtrs a ps

/-- The commands of groups in sequence whose tree stands at `a`. -/
def sequencePtrs (a : List Field) : List (List (List Char)) → List (List Ptr)
  | [] => []
  | [ps] => [groupPtrs a ps]
  | ps :: g :: gs => groupPtrs (a ++ [.cmd]) ps :: sequencePtrs (a ++ [.next]) (g :: gs)

/-- The commands of a line, by groups. -/
def lineGroups (line : List Char) : List (List Ptr) :=
  sequencePtrs [] ((segments line).map commands)

/-! ### The nodes are those of the line -/

theorem node_chainPtrs (a : List Field) (ps : List (List Char)) :
    (chainPtrs a ps).map Ptr.node = ps.map fun p => .exec (words p) := by
  induction ps generalizing a with
  | nil => rfl
  | cons p ps ih => simp [chainPtrs, ih]

theorem node_groupPtrs (a : List Field) (ps : List (List Char)) :
    (groupPtrs a ps).map Ptr.node = ps.map fun p => .exec (words p) := by
  match ps with
  | [] => rfl
  | [p] => rfl
  | p :: q :: ps => exact node_chainPtrs a _

theorem node_sequencePtrs (a : List Field) (gs : List (List (List Char))) :
    (sequencePtrs a gs).map (List.map Ptr.node) = gs.map (List.map fun p => .exec (words p)) := by
  induction gs generalizing a with
  | nil => rfl
  | cons ps gs ih =>
    cases gs with
    | nil => simp [sequencePtrs, node_groupPtrs]
    | cons g gs =>
      rw [sequencePtrs, List.map_cons, ih, node_groupPtrs]
      rfl

/-! ### The commands of the tree, and their order -/

theorem loopCommands_chain (a : List Field) (ps : List (List Char)) :
    (chain ps).loopCommands a = chainPtrs a ps := by
  induction ps generalizing a with
  | nil => rfl
  | cons p ps ih => simp [chain, chainPtrs, Cmd.loopCommands, Cmd.commands, ih]

theorem commands_groupTree (a : List Field) {ps : List (List Char)} (h : ps ≠ []) :
    (groupTree ps).commands a = groupPtrs a ps := by
  obtain ⟨p, qs, rfl⟩ := List.exists_cons_of_ne_nil h
  cases qs with
  | nil => rfl
  | cons q qs =>
    have hloop := loopCommands_chain (a ++ [.next]) (q :: qs)
    simp only [groupTree, groupPtrs, chain, chainPtrs, Cmd.commands,
      List.singleton_append] at hloop ⊢
    rw [hloop]

theorem commands_sequenceTree (a : List Field) {gs : List (List (List Char))} (hne : gs ≠ [])
    (h : ∀ ps ∈ gs, ps ≠ []) : (sequenceTree gs).commands a = (sequencePtrs a gs).flatten := by
  induction gs generalizing a with
  | nil => exact absurd rfl hne
  | cons ps gs ih =>
    have hps := h ps List.mem_cons_self
    cases gs with
    | nil => simp [sequenceTree, sequencePtrs, commands_groupTree a hps]
    | cons g gs =>
      rw [sequenceTree, Cmd.commands, commands_groupTree _ hps, sequencePtrs, List.flatten_cons,
        ih _ (List.cons_ne_nil g gs) fun qs hqs => h qs (List.mem_cons_of_mem ps hqs)]

/-- The commands of a group do not wait for each other. -/
theorem order_groupTree (a : List Field) (ps : List (List Char)) : (groupTree ps).order a = [] := by
  have hchain : ∀ (qs : List (List Char)) (b : List Field), (chain qs).loopOrder b = [] := by
    intro qs
    induction qs with
    | nil => exact fun _ => rfl
    | cons q qs ih => intro b; simp [chain, Cmd.loopOrder, Cmd.order, ih]
  cases ps with
  | nil => rfl
  | cons p qs =>
    cases qs with
    | nil => rfl
    | cons q qs =>
      have hloop := hchain (q :: qs) (a ++ [.next])
      exact hloop

/-- **A command has to wait exactly for those of earlier groups.** -/
theorem order_sequenceTree (a : List Field) {gs : List (List (List Char))}
    (h : ∀ ps ∈ gs, ps ≠ []) (x y : Ptr) : (x, y) ∈ (sequenceTree gs).order a ↔
      ∃ (i j : ℕ) (G H : List Ptr), i < j ∧ (sequencePtrs a gs)[i]? = some G ∧
        (sequencePtrs a gs)[j]? = some H ∧
        x ∈ G ∧ y ∈ H := by
  induction gs generalizing a with
  | nil => simp [sequenceTree, Cmd.order, sequencePtrs]
  | cons ps gs ih =>
    have hps := h ps List.mem_cons_self
    have hgs : ∀ qs ∈ gs, qs ≠ [] := fun qs hqs => h qs (List.mem_cons_of_mem ps hqs)
    cases gs with
    | nil =>
      rw [sequenceTree, order_groupTree]
      refine ⟨fun h => absurd h List.not_mem_nil, ?_⟩
      rintro ⟨i, j, G, H, hij, hi, hj, _, _⟩
      have := (List.getElem?_eq_some_iff.mp hj).1
      simp [sequencePtrs] at this
      omega
    | cons g gs =>
      rw [sequenceTree, Cmd.order, order_groupTree, List.nil_append, List.mem_append,
        List.mem_product, commands_groupTree _ hps,
        commands_sequenceTree _ (List.cons_ne_nil g gs) hgs, ih _ hgs, sequencePtrs]
      constructor
      · rintro (⟨hx, hy⟩ | ⟨i, j, G, H, hij, hi, hj, hx, hy⟩)
        · obtain ⟨H, hH, hy⟩ := List.mem_flatten.mp hy
          obtain ⟨j, hj⟩ := List.getElem?_of_mem hH
          exact ⟨0, j + 1, _, H, Nat.succ_pos j, rfl, hj, hx, hy⟩
        · exact ⟨i + 1, j + 1, G, H, Nat.succ_lt_succ hij, hi, hj, hx, hy⟩
      · rintro ⟨i, j, G, H, hij, hi, hj, hx, hy⟩
        -- The later of the two groups is not the first one.
        obtain ⟨j, rfl⟩ := Nat.exists_eq_succ_of_ne_zero (Nat.ne_zero_of_lt hij)
        cases i with
        | zero =>
          rw [List.getElem?_cons_zero, Option.some_inj] at hi
          refine Or.inl ⟨hi ▸ hx, List.mem_flatten.mpr ⟨H, List.mem_of_getElem? hj, hy⟩⟩
        | succ i => exact Or.inr ⟨i, j, G, H, Nat.lt_of_succ_lt_succ hij, hi, hj, hx, hy⟩

theorem sound_sequenceTree (gs : List (List (List Char))) : (sequenceTree gs).Sound := by
  have hchain : ∀ ps, (chain ps).LoopSound := by
    intro ps
    induction ps with
    | nil => rfl
    | cons p ps ih => exact ⟨trivial, ih⟩
  have hgroup : ∀ ps, (groupTree ps).Sound := by
    intro ps
    match ps with
    | [] => trivial
    | [p] => trivial
    | p :: q :: ps => exact ⟨trivial, hchain (q :: ps)⟩
  induction gs with
  | nil => trivial
  | cons ps gs ih =>
    cases gs with
    | nil => exact hgroup ps
    | cons g gs => exact ⟨hgroup ps, ih⟩

/-! ### Lines -/

theorem groups_ne_nil (line : List Char) : ∀ ps ∈ (segments line).map commands, ps ≠ [] := by
  intro ps hps
  obtain ⟨seg, _, rfl⟩ := List.mem_map.mp hps
  exact commands_ne_nil seg

theorem commands_lineTree (line : List Char) :
    (lineTree line).commands [] = (lineGroups line).flatten :=
  commands_sequenceTree [] (by simpa using segments_ne_nil line) (groups_ne_nil line)

theorem node_lineGroups (line : List Char) : (lineGroups line).map (List.map Ptr.node) =
    (segments line).map fun seg => (commands seg).map fun p => .exec (words p) := by
  rw [lineGroups, node_sequencePtrs, List.map_map]
  rfl

/-- A command is in one group only. -/
theorem index_unique {line : List Char} {i j : ℕ} {G H : List Ptr} {x : Ptr}
    (hi : (lineGroups line)[i]? = some G) (hj : (lineGroups line)[j]? = some H) (hx : x ∈ G)
    (hx' : x ∈ H) (hnodup : (lineGroups line).flatten.Nodup) : i = j := by
  by_contra hne
  have hpair := (List.nodup_flatten.mp hnodup).2
  obtain ⟨hi', rfl⟩ := List.getElem?_eq_some_iff.mp hi
  obtain ⟨hj', rfl⟩ := List.getElem?_eq_some_iff.mp hj
  rcases Nat.lt_or_gt_of_ne hne with hlt | hlt
  · exact List.pairwise_iff_getElem.mp hpair i j hi' hj' hlt hx hx'
  · exact List.pairwise_iff_getElem.mp hpair j i hj' hi' hlt hx' hx

/-- **The processes of a tree can run to the end**, and then every command was run. -/
theorem exists_run_all {t : Cmd} (ht : t.Sound) : ∃ h s, Run (Step shell) (start t) h s ∧
    ∀ x ∈ t.commands [], 0 < execCount h x := by
  obtain ⟨h, s, hrun, hstuck⟩ := @Run.exists_maximal _ _ (Step shell) Rooted (total Code.steps)
    (fun s e s' hroot hstep => hroot.step hstep)
    (fun s e s' hroot hstep => hstep.total_lt hroot steps_decreasing) (start t)
    (start_inv ht).kept.rooted
  have hi := Inv.of_run ht hrun
  refine ⟨h, s, hrun, fun x hx => ?_⟩
  rw [(hi.exited (hi.exited_of_stuck hstuck) hx).1]
  exact Nat.one_pos

/-- **A line runs in order.** Take a line the parser accepts, without blank commands, and any run of
the processes that `runcmd` creates for it. The commands are those of the line. Each command is run
at most once, and nothing else is. A command of a group is run only when every command of the group
before has terminated. Once the groups before have terminated, all commands of a group can be run
without any of them terminating. When the first process has exited, every command was run once and
has terminated. The number of steps is bounded, and where no step is left, the first process has
exited. -/
theorem line_runs_in_order {line : List Char} {cmd : Cmd} (hparse : parsecmd line = .ok cmd)
    (hfilled : ∀ seg ∈ segments line, ∀ p ∈ commands seg, ¬ Blank p) {h : List (Event Act)}
    {s : Forest Code} (hrun : Run (Step shell) (start cmd) h s) :
    ((lineGroups line).map (List.map Ptr.node) =
      (segments line).map fun seg => (commands seg).map fun p => .exec (words p)) ∧
    (∀ x, execCount h x ≤ 1 ∧ (0 < execCount h x → ∃ G ∈ lineGroups line, x ∈ G)) ∧
    (∀ (i : ℕ) (G H : List Ptr) (x y : Ptr), (lineGroups line)[i]? = some G →
      (lineGroups line)[i + 1]? = some H → x ∈ G → y ∈ H → 0 < execCount h y → Terminated h x) ∧
    (∀ i : ℕ, (∀ j < i, ∀ G, (lineGroups line)[j]? = some G → ∀ x ∈ G, Terminated h x) →
      ∃ h' s', Run (Step shell) s h' s' ∧ (∀ x, endCount h' x = 0) ∧
        ∀ G, (lineGroups line)[i]? = some G → ∀ y ∈ G, execCount (h ++ h') y = 1) ∧
    (s.code 0 = .exited → ∀ G ∈ lineGroups line, ∀ x ∈ G, execCount h x = 1 ∧ Terminated h x) ∧
    h.length ≤ cmd.steps.1 ∧ ((∀ e s', ¬ Step shell s e s') → s.code 0 = .exited) := by
  obtain rfl : lineTree line = cmd := by
    rcases parsecmd_cases line with herror | ⟨hbad, -⟩ | ⟨-, -, htree⟩
    · rw [herror] at hparse
      cases hparse
    · exact absurd (lineOk_of_filled hfilled) hbad
    · rw [htree] at hparse
      exact Except.ok.inj hparse
  have hgs := groups_ne_nil line
  have hcommands := commands_lineTree line
  have hnodup : (lineGroups line).flatten.Nodup := hcommands ▸ ((lineTree line).commands_nodup []).1
  have horder : ∀ x y, (x, y) ∈ (lineTree line).order [] ↔ _ := order_sequenceTree [] hgs
  have hi : Inv (lineTree line) h s := Inv.of_run (sound_sequenceTree _) hrun
  refine ⟨?_, fun x => ?_, ?_, ?_, ?_, length_le_steps hrun, hi.exited_of_stuck⟩
  · exact node_lineGroups line
  · refine ⟨(hi.execCount_le x).1, fun hpos => ?_⟩
    have := (hi.execCount_le x).2 hpos
    rw [hcommands] at this
    exact List.mem_flatten.mp this
  · intro i G H x y hG hH hx hy hpos
    exact hi.exec_after ((horder x y).mpr ⟨i, i + 1, G, H, Nat.lt_succ_self i, hG, hH, hx, hy⟩) hpos
  · intro i hbefore
    obtain ⟨h', s', hrun', hquiet, hexec⟩ := hi.exists_exec
    refine ⟨h', s', hrun', hquiet, fun G hG y hy => ?_⟩
    refine hexec y ?_ fun x hxy => ?_
    · rw [hcommands]
      exact List.mem_flatten.mpr ⟨G, List.mem_of_getElem? hG, hy⟩
    · -- What the command has to wait for is in a group before its own.
      obtain ⟨j, k, G', H', hjk, hG', hH', hx, hy'⟩ := (horder x y).mp hxy
      obtain rfl := index_unique hG hH' hy hy' hnodup
      exact hbefore j hjk G' hG' x hx
  · intro hexit G hG x hx
    refine hi.exited hexit ?_
    rw [hcommands]
    exact List.mem_flatten.mpr ⟨G, hG, hx⟩

/-- The line `a&b;c`. -/
def threeCommands : List Char := ['a', '&', 'b', ';', 'c']

/-- When the command behind the `;` has been run, the two commands before it have terminated. -/
theorem line_runs_in_order_three_commands : parsecmd threeCommands = .ok (lineTree threeCommands) ∧
    lineGroups threeCommands = [[⟨[.cmd, .cmd], .exec [['a']]⟩,
      ⟨[.cmd, .next, .cmd], .exec [['b']]⟩],
      [⟨[.next], .exec [['c']]⟩]] ∧
    ∃ h s, Run (Step shell) (start (lineTree threeCommands)) h s ∧
      execCount h ⟨[.next], .exec [['c']]⟩ = 1 ∧ Terminated h ⟨[.cmd, .cmd], .exec [['a']]⟩ ∧
      Terminated h ⟨[.cmd, .next, .cmd], .exec [['b']]⟩ := by
  have hparse : parsecmd threeCommands = .ok (lineTree threeCommands) := by decide +kernel
  have hgroups : lineGroups threeCommands = [[⟨[.cmd, .cmd], .exec [['a']]⟩,
      ⟨[.cmd, .next, .cmd], .exec [['b']]⟩], [⟨[.next], .exec [['c']]⟩]] := by decide +kernel
  obtain ⟨h, s, hrun, hall⟩ := @exists_run_all (lineTree threeCommands) (sound_sequenceTree _)
  have hpos : 0 < execCount h ⟨[.next], .exec [['c']]⟩ := hall _ (by
    rw [commands_lineTree, hgroups]
    simp)
  obtain ⟨-, honce, hafter, -⟩ := line_runs_in_order hparse (by decide) hrun
  rw [hgroups] at hafter
  refine ⟨hparse, hgroups, h, s, hrun, le_antisymm (honce _).1 hpos, ?_, ?_⟩
  · exact hafter 0 _ _ _ _ rfl rfl (by simp) (by simp) hpos
  · exact hafter 0 _ _ _ _ rfl rfl (by simp) (by simp) hpos

/-! ### Blank commands

A blank command is legal in several places: as a segment, before or after a `;`, and between two
`&`s. Each becomes a command without words, and `runcmd` has no test for one: it compares the
pointer to the node with `NULL`, not the first word. The node at the end of an `&` chain is the
exception. The loop over the chain takes its words for pointers, so there the test is made on the
first word. -/

theorem execCount_pos_iff {h : List (Event Act)} {x : Ptr} :
    0 < execCount h x ↔ ∃ p found, Event.act p (.exec x found) ∈ h := by
  unfold execCount
  constructor
  · intro hpos
    obtain ⟨n, hn, hne⟩ := List.exists_mem_ne_zero_of_sum_ne_zero hpos.ne'
    obtain ⟨e, he, rfl⟩ := List.mem_map.mp hn
    cases e with
    | act p a =>
      cases a with
      | exec y found =>
        have hy : y = x := by
          by_contra hne'
          exact hne (by simp [Event.tick, Act.execs, hne'])
        exact ⟨p, found, hy ▸ he⟩
      | tau => exact absurd (by simp [Event.tick, Act.execs]) hne
      | exit y => exact absurd (by simp [Event.tick, Act.execs]) hne
    | fork p q => exact absurd rfl hne
    | wait p q => exact absurd rfl hne
  · rintro ⟨p, found, hmem⟩
    have hle := List.single_le_sum (by simp) _
      (List.mem_map_of_mem (f := Event.tick fun e => e.execs.count x) hmem)
    have hone : Event.tick (fun e : Act => e.execs.count x) (.act p (.exec x found)) = 1 := by
      simp [Event.tick, Act.execs]
    omega

/-- The commands of the tree of a line are the commands of the line. -/
theorem mem_commands_lineTree {line : List Char} {node : Cmd} :
    (∃ x ∈ (lineTree line).commands [], x.node = node) ↔
      ∃ seg ∈ segments line, ∃ p ∈ commands seg, node = .exec (words p) := by
  have hnodes : ((lineTree line).commands []).map Ptr.node =
      ((segments line).map fun seg => (commands seg).map fun p => Cmd.exec (words p)).flatten := by
    rw [commands_lineTree, List.map_flatten, node_lineGroups]
  rw [← List.mem_map, hnodes, List.mem_flatten]
  constructor
  · rintro ⟨l, hl, hnode⟩
    obtain ⟨seg, hseg, rfl⟩ := List.mem_map.mp hl
    obtain ⟨p, hp, rfl⟩ := List.mem_map.mp hnode
    exact ⟨seg, hseg, p, hp, rfl⟩
  · rintro ⟨seg, hseg, p, hp, rfl⟩
    exact ⟨_, List.mem_map_of_mem hseg, List.mem_map_of_mem hp⟩

theorem words_eq_nil_iff {p : List Char} (hp : Fits p) : words p = [] ↔ Blank p := by
  constructor
  · intro h
    by_contra hb
    obtain ⟨c, t, q, -, -, -, hwords⟩ := exists_word hp.noSymbol hb
    rw [h] at hwords
    cases hwords
  · exact words_of_blank

/-- **A program is run without a name exactly when a line is accepted with a blank command.** -/
theorem execs_named_iff {line : List Char} {cmd : Cmd} (hparse : parsecmd line = .ok cmd) :
    (∀ h s, Run (Step shell) (start cmd) h s → ∀ p x found, Event.act p (.exec x found) ∈ h →
      ∃ w ws, x.node = .exec (w :: ws)) ↔
    ¬ LineOk line ∨ ∀ seg ∈ segments line, ∀ p ∈ commands seg, ¬ Blank p := by
  rcases parsecmd_cases line with herror | ⟨hbad, hinvalid⟩ | ⟨hplain, hgood, htree⟩
  · rw [herror] at hparse
    cases hparse
  · -- A rejected line has no command at all.
    rw [hinvalid] at hparse
    cases hparse
    refine iff_of_true (fun h s hrun p x found hmem => ?_) (Or.inl hbad)
    have hsound : (Cmd.invalid []).Sound := by simp [Cmd.Sound]
    have hi := Inv.of_run hsound hrun
    have hx := (hi.execCount_le x).2 (execCount_pos_iff.mpr ⟨p, found, hmem⟩)
    simp [Cmd.commands] at hx
  · rw [htree] at hparse
    cases hparse
    have hsound : (lineTree line).Sound := sound_sequenceTree _
    rw [or_iff_right (not_not_intro hgood)]
    constructor
    · intro hnamed seg hseg p hp hb
      obtain ⟨x, hx, hnode⟩ := mem_commands_lineTree.mpr ⟨seg, hseg, p, hp, rfl⟩
      obtain ⟨h, s, hrun, hall⟩ := exists_run_all hsound
      obtain ⟨q, found, hmem⟩ := execCount_pos_iff.mp (hall x hx)
      obtain ⟨w, ws, hw⟩ := hnamed h s hrun q x found hmem
      rw [hnode, words_of_blank hb] at hw
      cases hw
    · intro hfilled h s hrun q x found hmem
      have hx := ((Inv.of_run hsound hrun).execCount_le x).2
        (execCount_pos_iff.mpr ⟨q, found, hmem⟩)
      obtain ⟨seg, hseg, p, hp, hnode⟩ := mem_commands_lineTree.mp ⟨x, hx, rfl⟩
      have hne : words p ≠ [] := mt (words_eq_nil_iff (hplain.fits hseg hp)).mp
        (hfilled seg hseg p hp)
      obtain ⟨w, ws, hw⟩ := List.exists_cons_of_ne_nil hne
      exact ⟨w, ws, by rw [hnode, hw]⟩

/-- The line `a;b`, and its tree. -/
def twoCommands : List Char := ['a', ';', 'b']

def twoCommandsTree : Cmd := .sequence (.exec [['a']]) (.exec [['b']])

/-- The condition holds of `a;b`. -/
theorem execs_named_iff_two_commands : parsecmd twoCommands = .ok twoCommandsTree ∧
    ∀ h s, Run (Step shell) (start twoCommandsTree) h s → ∀ p x found,
      Event.act p (.exec x found) ∈ h → ∃ w ws, x.node = .exec (w :: ws) := by
  have hparse : parsecmd twoCommands = .ok twoCommandsTree := by decide +kernel
  exact ⟨hparse, (execs_named_iff hparse).mpr (Or.inr (by decide))⟩

/-- The line `a;`, with its newline. -/
def trailingSemi : List Char := ['a', ';', '\n']

/-- **A trailing `;`**: the process that has waited for the first command calls `execvp` without a
program. -/
theorem trailing_semi_execs_null :
    parsecmd trailingSemi = .ok (.sequence (.exec [['a']]) (.exec [])) ∧
    ∃ h s p found, Run (Step shell) (start (.sequence (.exec [['a']]) (.exec []))) h s ∧
      Event.act p (.exec ⟨[.next], .exec []⟩ found) ∈ h := by
  refine ⟨by decide +kernel, ?_⟩
  obtain ⟨h, s, hrun, hall⟩ := @exists_run_all (.sequence (.exec [['a']]) (.exec []))
    (by simp [Cmd.Sound])
  have hpos := hall ⟨[.next], .exec []⟩ (by simp [Cmd.commands])
  obtain ⟨p, found, hmem⟩ := execCount_pos_iff.mp hpos
  exact ⟨h, s, p, found, hrun, hmem⟩

end Hwsh
