import BiosKernel.Shell.Isolation

namespace BiosKernel
open Checked Runs Words
set_option autoImplicit true

/-- A file system with the directory `/a` alone. -/
def smallSystem : Surroundings where
  vfs :=
    { pathExists := fun path => .ok (if path = ascii "/a" then 1 else 0)
      getFileSize := fun _ => .ok 0
      read := fun _ _ _ m => .ok (0, m) }
  listDir _ := .ok []
  table := initFdpArr
  behind _ := 0
  input := []

/-- A command, and as many others as it takes for its slot to be the next one. -/
def roundAfter (line : CString) : List ShellOp :=
  .command smallSystem line :: List.replicate 15 (.command smallSystem (ascii "pwd"))

theorem roundAfter_typed {l : CString} (h : 0 ∉ l) : ∀ op ∈ roundAfter l, op.Typed := by
  intro op hop
  rcases List.mem_cons.mp hop with rfl | hop
  · exact h
  · rw [List.eq_of_mem_replicate hop]
    exact (by decide : 0 ∉ ascii "pwd")

theorem exists_reachable (ht : ∀ op ∈ ops, ShellOp.Typed op)
    (h : (run ShellOp.step initTty ops).map f = some b) :
    ∃ tty : Tty, tty.Reachable ∧ f tty = b := by
  obtain ⟨tty, hrun, hf⟩ := Option.map_eq_some_iff.mp h
  exact ⟨tty, ⟨ops, ht, hrun⟩, hf⟩

theorem not_isolated {line : CString} {ops ops' : List ShellOp}
    (x y : ShellResult (List Output × CString)) (ht : ∀ op ∈ ops, op.Typed)
    (ht' : ∀ op ∈ ops', op.Typed)
    (h : (run ShellOp.step initTty ops).map
      (fun tty => (tty.alive, tty.currWd, tty.shows smallSystem line)) = some (true, [47], x))
    (h' : (run ShellOp.step initTty ops').map
      (fun tty => (tty.alive, tty.currWd, tty.shows smallSystem line)) = some (true, [47], y))
    (hne : x ≠ y) : ¬ Isolated line := by
  intro hisolated
  obtain ⟨tty, hr, he⟩ := exists_reachable ht h
  obtain ⟨tty', hr', he'⟩ := exists_reachable ht' h'
  simp only [Prod.mk.injEq] at he he'
  have hsame := hisolated smallSystem tty tty' hr hr' he.1 he'.1 (he.2.1.trans he'.2.1.symm)
  exact hne (he.2.2.symm.trans (hsame.trans he'.2.2))

theorem Isolated.congr (h : Isolated line) (h0 : 0 ∉ fgets 256 line) (h0' : 0 ∉ fgets 256 line')
    (hws : commandWords (fgets 256 line) = commandWords (fgets 256 line')) : Isolated line' := by
  have hshows (tty : Tty) (env : Surroundings) : tty.shows env line = tty.shows env line' := by
    have hcmd : tty.getCmd line = tty.getCmd line' := by
      rw [tty.getCmd_eq h0, tty.getCmd_eq h0', hws]
    rw [Tty.shows, Tty.shows, Tty.enter, Tty.enter, hcmd]
  intro env tty tty' hr hr' halive halive' hwd
  rw [← hshows, ← hshows]
  exact h env tty tty' hr hr' halive halive' hwd

/-- The format is that of the last command in the slot. -/
theorem printf_not_isolated : ¬ Isolated (ascii "printf") :=
  not_isolated (.ok ([], [47])) (.ok ((ascii "foo\n").map .char, [47]))
    (List.forall_mem_nil ShellOp.Typed) (roundAfter_typed (l := ascii "echo foo") (by decide))
    (by decide +kernel) (by decide +kernel) (by decide)

theorem printf_string_not_isolated : ¬ Isolated (ascii "printf %s") :=
  not_isolated (.ok ([], [47])) (.ok ((ascii "%s\n").map .char, [47]))
    (List.forall_mem_nil ShellOp.Typed) (roundAfter_typed (l := ascii "echo a b") (by decide))
    (by decide +kernel) (by decide +kernel) (by decide)

theorem printf_number_not_isolated (h : line = ascii "printf %d" ∨ line = ascii "printf %x") :
    ¬ Isolated line := by
  have htyped := roundAfter_typed (l := ascii "echo a b") (by decide)
  rcases h with rfl | rfl
  all_goals
    exact not_isolated (.ok ((ascii "0\n").map .char, [47]))
      (.ok ((ascii "b: expected a numeric value\n").map .char, [47]))
      (List.forall_mem_nil ShellOp.Typed) htyped (by decide +kernel) (by decide +kernel) (by decide)

/-- The directory is the argument of the last command in the slot. -/
theorem cd_not_isolated : ¬ Isolated (ascii "cd") :=
  not_isolated
    (.ok ((ascii "Path to change work directory to wasn't provided\n").map .char, ascii "/a"))
    (.ok ((ascii ("Path to change work directory to wasn't provided\n" ++
      "The path doesn't exist\n")).map .char, [47]))
    (roundAfter_typed (l := ascii "echo a") (by decide))
    (roundAfter_typed (l := ascii "echo b") (by decide))
    (by decide +kernel) (by decide +kernel) (by decide +kernel)

theorem elim_strlen_ne_zero {p : Option CString} (hp : p = some ptr) (htext : ptr.text = t)
    (ht : t ≠ []) : p.elim 0 strlen ≠ 0 := by
  rw [hp, Option.elim_some, strlen, htext]
  exact fun h => ht (List.length_eq_zero_iff.mp h)

theorem shcmdEcho_length (h : Points argv 0 (c :: t :: texts)) (ht : t ≠ []) :
    ∃ out, shcmdEcho (texts.length + 2) argv = .ok out ∧
      out.length = ((t :: texts).map List.length).sum + texts.length + 1 := by
  obtain ⟨ptr, hptr, htext⟩ := h.tail.head
  obtain ⟨out, hout, hlen⟩ := strjoin_length h.tail.shift argvDelim
  have hargc : ((texts.length + 2 : Nat) : Int) - 1 = texts.length + 1 := by omega
  refine ⟨out ++ ascii "\n", ?_, ?_⟩
  · rw [shcmdEcho, if_neg (by omega), if_neg, hargc]
    · rw [show (fun i => argv (i + 1)) = fun k => argv (k + (0 + 1)) from rfl, hout]
      rfl
    · exact not_or.mpr ⟨by omega, elim_strlen_ne_zero hptr htext ht⟩
  · rw [List.length_append, hlen, show (CString.text argvDelim).length = 1 from rfl, Nat.mul_one]
    rfl

theorem shcmdPrintf_length (h : Points argv 0 (c :: ascii "%s" :: t :: texts)) (ht : t ≠ []) :
    ∃ out, Prod.fst <$> shcmdPrintf (texts.length + 3) argv = .ok out ∧
      out.length = ((t :: texts).map List.length).sum + 1 := by
  obtain ⟨format, hformat, hstring⟩ := h.tail.head
  obtain ⟨ptr, hptr, htext⟩ := h.tail.tail.head
  have hempty : ¬ (argv 2).elim 0 strlen = 0 := elim_strlen_ne_zero hptr htext ht
  obtain ⟨out, hout, hlen⟩ := strjoin_length h.tail.tail.shift []
  have hargc : ((texts.length + 3 : Nat) : Int) - 2 = texts.length + 1 := by omega
  have hcmp : strcmp format (ascii "%s") = 0 := by
    rw [← strcmp_text, hstring]
    decide
  refine ⟨out ++ ascii "\n", ?_, ?_⟩
  · rw [shcmdPrintf, show argv 1 = some format from hformat]
    dsimp only
    rw [if_pos hcmp, if_neg hempty, hargc,
      show (fun i => argv (i + 2)) = fun k => argv (k + (0 + 1 + 1)) from rfl, hout]
    rfl
  · rw [List.length_append, hlen, show (CString.text []).length = 0 from rfl, Nat.mul_zero]
    rfl

/-- The command that leaves as much white space behind its third argument as there can be. -/
def tabsLine : CString := ascii "printf %d 1" ++ List.replicate 14 9

theorem exists_tabs : ∃ tty : Tty, tty.Reachable ∧ tty.alive = true ∧ tty.currWd = [47] ∧
    tty.ci = 0 ∧ tty.arg 0 2 = some (49 :: 0 :: List.replicate 13 9) := by
  have hrun : (run ShellOp.step initTty (roundAfter tabsLine)).map
      (fun tty => (tty.alive, tty.currWd, tty.ci, tty.arg 0 2)) =
        some (true, [47], 0, some (49 :: 0 :: List.replicate 13 9)) := by decide +kernel
  obtain ⟨tty, hr, he⟩ := exists_reachable (roundAfter_typed (by decide)) hrun
  simp only [Prod.mk.injEq] at he
  exact ⟨tty, hr, he.1, he.2.1, he.2.2.1, he.2.2.2⟩

theorem points_entered {tty : Tty} (h : Orderly tty) (h0 : 0 ∉ fgets 256 line)
    (hws : commandWords (fgets 256 line) = c :: a :: b :: ws) :
    Points (tty.entered line) 0 (c.take 15 :: a.take 15 ::
      (b.take 15 ++ residue ((tty.arg tty.ci 2).getD []) (b.take 15).length) ::
        ws.map (·.take 15)) := by
  intro k t ht
  rw [Int.zero_add]
  match k, ht with
  | 0, rfl => exact Tty.entered_text h h0 (by rw [hws]; rfl) (by decide)
  | 1, rfl => exact Tty.entered_text h h0 (by rw [hws]; rfl) (by decide)
  | 2, rfl =>
    have hb : (commandWords (fgets 256 line))[2]? = some b := by
      rw [hws]
      rfl
    rw [tty.entered_eq line (by decide), tty.getCmd_arg h0, hb]
    exact ⟨_, rfl, text_copyToken (commandWords_word h0 hb).1 _⟩
  | k + 3, ht =>
    obtain ⟨w, hw, rfl⟩ := Option.map_eq_some_iff.mp ((List.getElem?_map ..).symm.trans ht)
    exact Tty.entered_text h h0 (by rw [hws]; exact hw) (by omega)

theorem residue_tabs :
    ∀ len < 15, 2 ≤ len → residue (49 :: 0 :: List.replicate 13 9) len = [9] := by decide +kernel

theorem residue_seen (h0 : 0 ∉ line) (hws : commandWords (fgets 256 line) = c :: a :: b :: ws)
    (hb : ¬ Plain b) (h : Isolated line) :
    ∃ argv argv' : Argv,
      Points argv 0 (c.take 15 :: a.take 15 :: b.take 15 :: ws.map (·.take 15)) ∧
      Points argv' 0 (c.take 15 :: a.take 15 :: (b.take 15 ++ [9]) :: ws.map (·.take 15)) ∧
      Effect.seen <$> (findShcmd (c.take 15)).call smallSystem [47] (ws.length + 3) argv =
        Effect.seen <$> (findShcmd (c.take 15)).call smallSystem [47] (ws.length + 3) argv' := by
  have h0' : 0 ∉ fgets 256 line := fun hm => h0 (List.mem_of_mem_take hm)
  obtain ⟨tty, hr, halive, hwd, hci, hthird⟩ := exists_tabs
  have hinit : initTty.Reachable := ⟨[], List.forall_mem_nil _, rfl⟩
  have hsame := h smallSystem initTty tty hinit hr rfl halive hwd.symm
  rw [Tty.shows_cons _ orderly_initTty h0' hws, Tty.shows_cons _ hr.orderly h0' hws, hwd] at hsame
  have hpoints := points_entered orderly_initTty h0' hws
  have hpoints' := points_entered hr.orderly h0' hws
  have hfresh : residue ((initTty.arg initTty.ci 2).getD []) (b.take 15).length = [] :=
    if_pos (.inr rfl)
  have htabs : residue ((tty.arg tty.ci 2).getD []) (b.take 15).length = [9] := by
    obtain ⟨h2, h14⟩ := Decidable.not_not.mp hb
    rw [hci, hthird, Option.getD_some]
    apply residue_tabs
    · rw [List.length_take]
      omega
    · rw [List.length_take]
      omega
  rw [hfresh, List.append_nil] at hpoints
  rw [htabs] at hpoints'
  exact ⟨_, _, hpoints, hpoints', hsame⟩

theorem take_ne_nil {w : CString} (h : w ≠ []) : w.take 15 ≠ [] := by
  cases w with
  | nil => exact absurd rfl h
  | cons c w => exact List.cons_ne_nil _ _

theorem length_of_seen {out out' : List UInt8} {wd : CString} {x y : ShellResult (List UInt8)}
    (hx : x = .ok out) (hy : y = .ok out')
    (h : (fun text : List UInt8 => (text.map Output.char, wd)) <$> x =
      (fun text : List UInt8 => (text.map Output.char, wd)) <$> y) : out.length = out'.length := by
  subst hx hy
  have hlen := congrArg List.length (congrArg Prod.fst (Except.ok.inj h))
  rwa [List.length_map, List.length_map] at hlen

theorem echo_third_plain (h0 : 0 ∉ line)
    (hws : commandWords (fgets 256 line) = ascii "echo" :: a :: b :: ws) (h : Isolated line) :
    Plain b := by
  by_contra hb
  obtain ⟨argv, argv', hpoints, hpoints', hsame⟩ := residue_seen h0 hws hb h
  have h0' : 0 ∉ fgets 256 line := fun hm => h0 (List.mem_of_mem_take hm)
  have ha := take_ne_nil (commandWords_word h0' (j := 1) (w := a) (by rw [hws]; rfl)).2
  obtain ⟨out, hout, hlen⟩ := shcmdEcho_length hpoints ha
  obtain ⟨out', hout', hlen'⟩ := shcmdEcho_length hpoints' ha
  rw [List.length_cons, List.length_map] at hout hout'
  rw [show findShcmd ((ascii "echo").take 15) = .echo by decide, seen_echo, seen_echo] at hsame
  have heq := length_of_seen hout hout' hsame
  simp only [List.map_cons, List.sum_cons, List.length_append, List.length_cons,
    List.length_nil] at hlen hlen'
  omega

theorem printf_third_plain (h0 : 0 ∉ line)
    (hws : commandWords (fgets 256 line) = ascii "printf" :: ascii "%s" :: b :: ws)
    (h : Isolated line) : Plain b := by
  by_contra hb
  obtain ⟨argv, argv', hpoints, hpoints', hsame⟩ := residue_seen h0 hws hb h
  have h0' : 0 ∉ fgets 256 line := fun hm => h0 (List.mem_of_mem_take hm)
  have hb := take_ne_nil (commandWords_word h0' (j := 2) (w := b) (by rw [hws]; rfl)).2
  have hformat : (ascii "%s").take 15 = ascii "%s" := by decide
  rw [hformat] at hpoints hpoints'
  obtain ⟨out, hout, hlen⟩ := shcmdPrintf_length hpoints hb
  obtain ⟨out', hout', hlen'⟩ :=
    shcmdPrintf_length hpoints' fun hnil => hb (List.append_eq_nil_iff.mp hnil).1
  rw [List.length_map] at hout hout'
  rw [show findShcmd ((ascii "printf").take 15) = .printf by decide, seen_printf, seen_printf]
    at hsame
  have heq := length_of_seen hout hout' hsame
  simp only [List.map_cons, List.sum_cons, List.length_append, List.length_cons,
    List.length_nil] at hlen hlen'
  omega

/-- A line is isolated exactly if its command is given all the arguments that it looks at, a format
and what that asks for to `printf` and a directory to `cd`, and if a third word that is printed as
it is has one character or more than 14. -/
theorem isolated_iff (line : CString) (h0 : 0 ∉ line) :
    Isolated line ↔ OwnArguments (commandWords (fgets 256 line)) := by
  refine ⟨?_, isolated_of_own h0⟩
  intro h
  have h0' : 0 ∉ fgets 256 line := fun hm => h0 (List.mem_of_mem_take hm)
  have hline {l : CString} {words : List CString} (hws : commandWords (fgets 256 line) = words)
      (hl : 0 ∉ fgets 256 l) (hwords : commandWords (fgets 256 l) = words) : Isolated l :=
    h.congr h0' hl (hws.trans hwords.symm)
  match hws : commandWords (fgets 256 line) with
  | [] => trivial
  | cmd :: args =>
    rw [OwnArguments]
    split
    · rename_i hcmd
      subst hcmd
      match args with
      | [] => exact printf_not_isolated (hline hws (by decide) (by decide))
      | [f] =>
        refine ⟨?_, ?_, ?_⟩
        · rintro rfl
          exact printf_string_not_isolated (hline hws (by decide) (by decide))
        · rintro rfl
          exact printf_number_not_isolated (.inl rfl) (hline hws (by decide) (by decide))
        · rintro rfl
          exact printf_number_not_isolated (.inr rfl) (hline hws (by decide) (by decide))
      | f :: w :: ws =>
        rintro rfl
        exact printf_third_plain h0 hws h
    · split
      · rename_i hcmd
        subst hcmd
        rintro rfl
        exact cd_not_isolated (hline hws (by decide) (by decide))
      · split
        · rename_i hcmd
          subst hcmd
          match args with
          | [] => trivial
          | [_] => trivial
          | a :: w :: ws => exact echo_third_plain h0 hws h
        · trivial

/-- `ls /mnt` is isolated. -/
theorem isolated_ls : Isolated (ascii "ls /mnt") :=
  (isolated_iff (ascii "ls /mnt") (by decide)).mpr (by decide)

/-- `printf` without a format prints nothing at first, and `foo` where `echo foo` was the last
command in its slot. -/
theorem printf_shows_last_argument :
    initTty.shows smallSystem (ascii "printf") = .ok ([], [47]) ∧
      (run ShellOp.step initTty (roundAfter (ascii "echo foo"))).map
        (fun tty => (tty.currWd, tty.shows smallSystem (ascii "printf"))) =
          some ([47], .ok ((ascii "foo\n").map .char, [47])) ∧
      ¬ Isolated (ascii "printf") :=
  ⟨by decide +kernel, by decide +kernel, printf_not_isolated⟩

end BiosKernel
