import BiosKernel.Shell.Arguments

namespace BiosKernel
open Checked Runs Words
set_option autoImplicit true

namespace Tty

/-- What is seen of a line that is entered: what `parse_cmd` shows, and the working directory
behind it. -/
def shows (tty : Tty) (env : Surroundings) (line : CString) :
    ShellResult (List Output × CString) :=
  (fun r => (r.1, r.2.currWd)) <$> tty.enter env line

/-- The arguments of the command as `parse_cmd` gets them. -/
def entered (tty : Tty) (line : CString) : Argv := (tty.getCmd line).2.argv tty.ci

end Tty

/-- Whatever was entered before, the line shows the same in the same directory. -/
def Isolated (line : CString) : Prop :=
  ∀ (env : Surroundings) (tty tty' : Tty), tty.Reachable → tty'.Reachable →
    tty.alive = true → tty'.alive = true → tty.currWd = tty'.currWd →
    tty.shows env line = tty'.shows env line

/-- A third argument of this length is stored as it is. -/
def Plain (w : CString) : Prop := ¬ (2 ≤ w.length ∧ w.length ≤ 14)

/-- The arguments with which `printf` sees no more than these: a format, and what it asks for. -/
def PrintfArguments : List CString → Prop
  | [] => False
  | [format] => format ≠ ascii "%s" ∧ format ≠ ascii "%d" ∧ format ≠ ascii "%x"
  | format :: w :: _ => format = ascii "%s" → Plain w

def EchoArguments : List CString → Prop
  | _ :: w :: _ => Plain w
  | _ => True

/-- The words of a command line that sees no more than itself. -/
def OwnArguments : List CString → Prop
  | [] => True
  | cmd :: args =>
    if cmd = ascii "printf" then PrintfArguments args
    else if cmd = ascii "cd" then args ≠ []
    else if cmd = ascii "echo" then EchoArguments args
    else True

instance : DecidablePred Plain := fun w =>
  inferInstanceAs (Decidable (¬ (2 ≤ w.length ∧ w.length ≤ 14)))

instance : DecidablePred PrintfArguments
  | [] => .isFalse id
  | [format] =>
    inferInstanceAs (Decidable (format ≠ ascii "%s" ∧ format ≠ ascii "%d" ∧ format ≠ ascii "%x"))
  | format :: w :: _ => inferInstanceAs (Decidable (format = ascii "%s" → Plain w))

instance : DecidablePred EchoArguments
  | [] => .isTrue trivial
  | [_] => .isTrue trivial
  | _ :: w :: _ => inferInstanceAs (Decidable (Plain w))

instance : DecidablePred OwnArguments
  | [] => .isTrue trivial
  | cmd :: args => inferInstanceAs (Decidable (if cmd = ascii "printf" then PrintfArguments args
      else if cmd = ascii "cd" then args ≠ []
      else if cmd = ascii "echo" then EchoArguments args
      else True))

namespace Tty

theorem shows_nil (tty : Tty) (env : Surroundings) (h0 : 0 ∉ fgets 256 line)
    (hws : commandWords (fgets 256 line) = []) :
    tty.shows env line = .ok ([], tty.currWd) := by
  have hcargc : (tty.getCmd line).2.cargc (tty.getCmd line).1 = 0 := by
    rw [tty.getCmd_fst h0, tty.getCmd_cargc h0, Function.update_self, hws]
    rfl
  rw [shows, enter]
  dsimp only
  rw [parseCmd, if_pos (.inl hcargc), tty.getCmd_eq h0]
  rfl

theorem entered_eq (tty : Tty) (line : CString) {j : Nat} (hj : j < argMax) :
    tty.entered line j = (tty.getCmd line).2.arg tty.ci j := by
  rw [entered, argv, if_pos (by omega), Int.toNat_natCast]

theorem entered_text {tty : Tty} {j : Nat} (h : Orderly tty) (h0 : 0 ∉ fgets 256 line)
    (hw : (commandWords (fgets 256 line))[j]? = some w) (hj : j ≠ 2) :
    ∃ ptr, tty.entered line j = some ptr ∧ ptr.text = w.take 15 := by
  obtain ⟨ptr, hptr, htext, -⟩ := h.getCmd_arg h0 hw
  rw [tty.entered_eq line (commandWords_getElem? hw).2]
  exact ⟨ptr, hptr, (htext hj).2⟩

theorem getCmd_currWd (tty : Tty) (h0 : 0 ∉ fgets 256 line) :
    (tty.getCmd line).2.currWd = tty.currWd := by
  rw [tty.getCmd_eq h0]

end Tty

theorem findShcmd_congr {s t : CString} (h : s.text = t.text) : findShcmd s = findShcmd t := by
  simp only [findShcmd, strcmp_congr h]

theorem text_take {w : CString} (h0 : 0 ∉ w) : CString.text (w.take 15) = w.take 15 :=
  CString.text_eq_self fun hm => h0 (List.mem_of_mem_take hm)

namespace Tty

theorem shows_cons {tty : Tty} (env : Surroundings) (h : Orderly tty) (h0 : 0 ∉ fgets 256 line)
    (hws : commandWords (fgets 256 line) = w :: ws) :
    tty.shows env line = Effect.seen <$>
      (findShcmd (w.take 15)).call env tty.currWd (ws.length + 1) (tty.entered line) := by
  have hw : (commandWords (fgets 256 line))[0]? = some w := by
    rw [hws]
    rfl
  obtain ⟨ptr, hptr, htext⟩ := entered_text h h0 hw (by decide)
  have hfind : findShcmd ptr = findShcmd (w.take 15) := by
    apply findShcmd_congr
    rw [htext, text_take (commandWords_word h0 hw).1]
  have hcargc : (tty.getCmd line).2.cargc tty.ci = ws.length + 1 := by
    rw [tty.getCmd_cargc h0, Function.update_self, hws, List.length_cons]
  have hcache : ((tty.getCmd line).2.cache tty.ci).isNone = false := by
    rw [tty.getCmd_eq h0]
    dsimp only
    rw [Function.update_self]
    rfl
  have hargc : ¬ ((tty.getCmd line).2.cargc tty.ci = 0 ∨
      ((tty.getCmd line).2.cache tty.ci).isNone = true) := by
    rw [hcargc, hcache]
    exact fun hor => hor.elim (Nat.succ_ne_zero _) nofun
  rw [shows, enter]
  dsimp only
  rw [tty.getCmd_fst h0, parseCmd, if_neg hargc, hcargc, tty.getCmd_currWd h0]
  have hderef : deref ((tty.getCmd line).2.argv tty.ci 0) = .ok ptr := by
    rw [← entered, show tty.entered line 0 = some ptr from hptr]
    rfl
  rw [hderef, ok_bind, hfind, ← entered]
  cases (findShcmd (w.take 15)).call env tty.currWd (ws.length + 1) (tty.entered line) with
  | ok effect => rfl
  | error fault => rfl

end Tty

theorem sameText_entered {tty tty' : Tty} {j : Nat} (h : Orderly tty) (h' : Orderly tty')
    (h0 : 0 ∉ fgets 256 line) (hw : (commandWords (fgets 256 line))[j]? = some w) (hj : j ≠ 2) :
    SameText (tty.entered line j) (tty'.entered line j) := by
  obtain ⟨ptr, hptr, htext⟩ := Tty.entered_text h h0 hw hj
  obtain ⟨ptr', hptr', htext'⟩ := Tty.entered_text h' h0 hw hj
  rw [SameText, hptr, hptr', Option.map_some, Option.map_some, htext, htext']

theorem third_entered {tty : Tty} (h : Orderly tty) (h0 : 0 ∉ fgets 256 line)
    (hw : (commandWords (fgets 256 line))[2]? = some w) :
    ∃ ptr r, tty.entered line 2 = some ptr ∧ ptr.text = w.take 15 ++ r ∧
      (∀ c ∈ r, isspace c = true) ∧ (Plain w → r = []) := by
  obtain ⟨ptr, hptr, -, hthird⟩ := h.getCmd_arg h0 hw
  obtain ⟨-, -, r, htext, hspace, hplain⟩ := hthird rfl
  have hentered := tty.entered_eq line (commandWords_getElem? hw).2
  exact ⟨ptr, r, hentered.trans hptr, htext, hspace, hplain⟩

theorem sameTrimmed_entered {tty tty' : Tty} (h : Orderly tty) (h' : Orderly tty')
    (h0 : 0 ∉ fgets 256 line) (hw : (commandWords (fgets 256 line))[2]? = some w) :
    SameTrimmed (tty.entered line 2) (tty'.entered line 2) := by
  obtain ⟨ptr, r, hptr, htext, hspace, -⟩ := third_entered h h0 hw
  obtain ⟨ptr', r', hptr', htext', hspace', -⟩ := third_entered h' h0 hw
  rw [SameTrimmed, hptr, hptr', Option.map_some, Option.map_some, htext, htext',
    trimmed_append hspace, trimmed_append hspace']

theorem sameText_third {tty tty' : Tty} (h : Orderly tty) (h' : Orderly tty')
    (h0 : 0 ∉ fgets 256 line) (hw : (commandWords (fgets 256 line))[2]? = some w) (hp : Plain w) :
    SameText (tty.entered line 2) (tty'.entered line 2) := by
  obtain ⟨ptr, r, hptr, htext, -, hr⟩ := third_entered h h0 hw
  obtain ⟨ptr', r', hptr', htext', -, hr'⟩ := third_entered h' h0 hw
  rw [SameText, hptr, hptr', Option.map_some, Option.map_some, htext, htext', hr hp, hr' hp]

theorem word_of_strcmp {ptr w name : CString} (htext : ptr.text = w.take 15) (hw : 0 ∉ w)
    (hname : 0 ∉ name) (hlen : name.length < 15) (h : strcmp ptr name = 0) : w = name := by
  have hsame : strcmp ptr name = strcmp (w.take 15) name :=
    strcmp_congr (by rw [htext, text_take hw]) name
  have htake : w.take 15 = name :=
    eq_of_strcmp (fun hm => hw (List.mem_of_mem_take hm)) hname (hsame.symm.trans h)
  have hshort : w.length ≤ 15 := by
    have := congrArg List.length htake
    rw [List.length_take] at this
    omega
  rw [← htake, List.take_of_length_le hshort]

theorem findShcmd_mem (h : findShcmd t = cmd) (hcmd : cmd ≠ .notfound) :
    ∃ name, (name, cmd) ∈ shcmdTable ∧ strcmp t name = 0 := by
  rw [findShcmd] at h
  cases hfind : shcmdTable.find? fun entry => strcmp t entry.1 = 0 with
  | none =>
    rw [hfind] at h
    exact absurd h.symm hcmd
  | some entry =>
    rw [hfind] at h
    cases h
    have hname := List.find?_some hfind
    exact ⟨entry.1, List.mem_of_find?_eq_some hfind, of_decide_eq_true hname⟩

theorem word_of_findShcmd (name : CString) (hw : 0 ∉ w) (h : findShcmd (w.take 15) = cmd)
    (hcmd : cmd ≠ .notfound)
    (htable : ∀ entry ∈ shcmdTable, entry.2 = cmd → entry.1 = name)
    (hname : 0 ∉ name) (hlen : name.length < 15) : w = name := by
  obtain ⟨name', hmem, hstrcmp⟩ := findShcmd_mem h hcmd
  cases htable _ hmem rfl
  exact word_of_strcmp (text_take hw) hw hname hlen hstrcmp

theorem seen_echo (env : Surroundings) (currWd : CString) (argc : Nat) (argv : Argv) :
    Effect.seen <$> Shcmd.call env currWd argc argv .echo =
      (fun text => (text.map .char, currWd)) <$> shcmdEcho argc argv := by
  rw [Shcmd.call]
  cases shcmdEcho argc argv with
  | ok text => rfl
  | error fault => rfl

theorem seen_printf (env : Surroundings) (currWd : CString) (argc : Nat) (argv : Argv) :
    Effect.seen <$> Shcmd.call env currWd argc argv .printf =
      (fun text => (text.map .char, currWd)) <$> (Prod.fst <$> shcmdPrintf argc argv) := by
  rw [Shcmd.call]
  cases shcmdPrintf argc argv with
  | ok r => rfl
  | error fault => rfl

section
variable {tty tty' : Tty} {line : CString} {w : CString} {ws : List CString}
  (h : Orderly tty) (h' : Orderly tty') (h0 : 0 ∉ fgets 256 line)
  (hws : commandWords (fgets 256 line) = w :: ws)
include h h' h0 hws

theorem sameText_of_ne (i : Int) (hi : 0 ≤ i) (hlt : i < (ws.length + 1 : Nat)) (hne : i ≠ 2) :
    SameText (tty.entered line i) (tty'.entered line i) := by
  obtain ⟨j, rfl⟩ := Int.eq_ofNat_of_zero_le hi
  have hj : j < (w :: ws).length := by
    rw [List.length_cons]
    omega
  apply sameText_entered h h' h0 _ (by omega) (w := (w :: ws).get ⟨j, hj⟩)
  rw [hws]
  exact List.getElem?_eq_getElem hj

theorem isolated_echo (hown : OwnArguments (ascii "echo" :: ws)) (i : Int) (hi : 0 ≤ i)
    (hlt : i < (ws.length + 1 : Nat)) : SameText (tty.entered line i) (tty'.entered line i) := by
  by_cases h2 : i = 2
  · subst h2
    match ws, hown with
    | _ :: v :: _, hplain =>
      exact sameText_third h h' h0 (by rw [hws]; rfl) hplain
  · exact sameText_of_ne h h' h0 hws i hi hlt h2

theorem isolated_printf (hown : OwnArguments (ascii "printf" :: ws)) :
    Prod.fst <$> shcmdPrintf (ws.length + 1) (tty.entered line) =
      Prod.fst <$> shcmdPrintf (ws.length + 1) (tty'.entered line) := by
  match ws, hown with
  | f :: args, hown =>
    have hf : (commandWords (fgets 256 line))[1]? = some f := by
      rw [hws]
      rfl
    have hf0 := (commandWords_word h0 hf).1
    obtain ⟨ptr, hptr, htext⟩ := Tty.entered_text h h0 hf (by decide)
    have hformat {name : CString} (hname : 0 ∉ name) (hlen : name.length < 15) :
        strcmp ptr name = 0 → f = name := word_of_strcmp htext hf0 hname hlen
    refine shcmdPrintf_congr hptr (by rw [List.length_cons]; omega)
      (sameText_of_ne h h' h0 hws) ?_ ?_ ?_
    · intro hlt
      match args with
      | v :: _ => exact sameTrimmed_entered h h' h0 (w := v) (by rw [hws]; rfl)
    · intro hneeds
      match args with
      | v :: _ =>
        simp only [List.length_cons]
        omega
      | [] =>
        obtain ⟨hs, hd, hx⟩ : f ≠ ascii "%s" ∧ f ≠ ascii "%d" ∧ f ≠ ascii "%x" := hown
        rcases hneeds with hneeds | hneeds | hneeds
        · exact absurd (hformat (by decide) (by decide) hneeds) hs
        · exact absurd (hformat (by decide) (by decide) hneeds) hd
        · exact absurd (hformat (by decide) (by decide) hneeds) hx
    · intro hs
      have hs := hformat (by decide) (by decide) hs
      match args with
      | v :: _ =>
        have hplain : f = ascii "%s" → Plain v := hown
        exact sameText_third h h' h0 (by rw [hws]; rfl) (hplain hs)
      | [] => exact absurd hs hown.1

end

theorem isolated_of_own (h0 : 0 ∉ line) (hown : OwnArguments (commandWords (fgets 256 line))) :
    Isolated line := by
  intro env tty tty' hr hr' _ _ hwd
  have h := hr.orderly
  have h' := hr'.orderly
  have h0' : 0 ∉ fgets 256 line := fun hm => h0 (List.mem_of_mem_take hm)
  cases hws : commandWords (fgets 256 line) with
  | nil => rw [tty.shows_nil env h0' hws, tty'.shows_nil env h0' hws, hwd]
  | cons w ws =>
    have hw0 : 0 ∉ w := (commandWords_word h0' (j := 0) (by rw [hws]; rfl)).1
    rw [hws] at hown
    rw [Tty.shows_cons env h h0' hws, Tty.shows_cons env h' h0' hws, hwd]
    by_cases hecho : findShcmd (w.take 15) = .echo
    · cases word_of_findShcmd (ascii "echo") hw0 hecho (by decide) (by decide) (by decide)
        (by decide)
      rw [hecho, seen_echo, seen_echo, shcmdEcho_congr (isolated_echo h h' h0' hws hown)]
    · by_cases hprintf : findShcmd (w.take 15) = .printf
      · cases word_of_findShcmd (ascii "printf") hw0 hprintf (by decide) (by decide) (by decide)
          (by decide)
        rw [hprintf, seen_printf, seen_printf, isolated_printf h h' h0' hws hown]
      · have hcd : findShcmd (w.take 15) = .cd → 2 ≤ ws.length + 1 := by
          intro hcd
          cases word_of_findShcmd (ascii "cd") hw0 hcd (by decide) (by decide) (by decide)
            (by decide)
          exact Nat.succ_le_succ (List.length_pos_iff.mpr hown)
        have hfirst := sameText_of_ne h h' h0' hws
        rw [Shcmd.call_congr env tty'.currWd hecho hprintf hcd
          (hfirst 0 (by decide) (by omega) (by decide))
          fun hargc => hfirst 1 (by decide) (by omega) (by decide)]

end BiosKernel
