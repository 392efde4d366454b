import EluaWebServer.Lib.CString
import EluaWebServer.Uip.Psock

/-!
# The request line

`handle_input` takes the name of a file and the parameters from the request
line, and `handle_output` opens the file with `httpd_fs_open`.  Names and
parameters are copied into buffers of three sizes, and a store outside of one is
`none`.
-/

namespace Httpd.Request

open Buffer CString Uip.Psock

def ISO_space : UInt8 := 0x20
def ISO_slash : UInt8 := 0x2f
def ISO_question : UInt8 := 0x3f

/-- The arrays of `struct httpd_state` that hold the request, and whether its
`state` is `STATE_OUTPUT`. -/
structure HttpdState where
  inputbuf : List UInt8
  filename : List UInt8
  httpParams : List UInt8
  output : Bool

/-- `char inputbuf[50]`, `char filename[20]` and `char http_params[30]`. -/
structure HttpdState.Sized (s : HttpdState) : Prop where
  inputbuf : s.inputbuf.length = 50
  filename : s.filename.length = 20
  httpParams : s.httpParams.length = 30

/-- The file system: whether the memory of `httpd_fs_int` is there, and whether
the file with a path can be opened and read.  What follows `filename` in memory
is what a name without an end goes on with. -/
structure Fs where
  huge : Bool
  opens : List UInt8 → Bool
  following : List UInt8

def httpGet : List UInt8 := [0x47, 0x45, 0x54, 0x20]

/-- `http_index_pht`, as far as its `sizeof` in httpd.c. -/
def httpIndexPht : List UInt8 := [0x2f, 0x69, 0x6e, 0x64, 0x65, 0x78, 0x2e, 0x70, 0x68, 0x74]

def http404Html : List UInt8 := [0x2f, 0x34, 0x30, 0x34, 0x2e, 0x68, 0x74, 0x6d, 0x6c]

/-- `FILE_NAME_PREFIX`, the string "/mmc". -/
def FILE_NAME_PREFIX : List UInt8 := [0x2f, 0x6d, 0x6d, 0x63]

def FILE_NAME_MAX_SIZE : Nat := 10

/-- `char fullpath[ ]`, as `httpd_fs_open` begins with it. -/
def fullpath : List UInt8 :=
  FILE_NAME_PREFIX ++ List.replicate (1 + FILE_NAME_MAX_SIZE) 0

/-- `strcpy`, from a string. -/
def strcpy (dst src : List UInt8) : Option (List UInt8) :=
  storeAll dst 0 (src ++ [0])

/-- `strncpy`, from a string. -/
def strncpy (dst src : List UInt8) (n : Nat) : Option (List UInt8) :=
  storeAll dst 0 (src.take n ++ List.replicate (n - src.length) 0)

/-- Where `handle_input` ends up: it waits for more, has closed the connection,
or has gone on to the output. -/
inductive Input where
  | waiting
  | closed
  | output (s : HttpdState)

/-- `handle_input` after the second word has been read. -/
def handleTarget (s : HttpdState) (datalen : Nat) : Option Input :=
  if s.inputbuf[0]? ≠ some ISO_slash then some .closed
  else if s.inputbuf[1]? = some ISO_space then
    (strncpy (List.replicate s.filename.length 0) httpIndexPht httpIndexPht.length).map
      fun filename => .output { s with filename := filename, output := true }
  else
    (store s.inputbuf (datalen - 1) 0).bind fun inputbuf =>
      (strchr ISO_question inputbuf).bind fun params =>
        match params with
        | some params =>
            (store inputbuf params 0).bind fun inputbuf =>
              (strcpy s.filename (text inputbuf)).bind fun filename =>
                (strcpy s.httpParams (text (inputbuf.drop (params + 1)))).map fun httpParams =>
                  .output ⟨inputbuf, filename, httpParams, true⟩
        | none =>
            (store inputbuf (datalen - 1) 0).bind fun inputbuf =>
              (strncpy s.filename (text inputbuf) s.filename.length).bind fun filename =>
                (store s.httpParams 0 0).map fun httpParams =>
                  .output ⟨inputbuf, filename, httpParams, true⟩

/-- `handle_input`, on what arrives. -/
def handleInput (s : HttpdState) (arrivals : List (List UInt8)) : Option Input :=
  (psockReadto s.inputbuf 49 ISO_space [] arrivals).bind fun
    | .waiting => some .waiting
    | .done buf data arrivals =>
        if buf.mem.take 4 ≠ httpGet then some .closed
        else
          (psockReadto buf.mem 49 ISO_space data arrivals).bind fun
            | .waiting => some .waiting
            | .done buf _ _ => handleTarget { s with inputbuf := buf.mem } buf.datalen

/-- `httpd_fs_open`.  The cache never holds a file, and its names are empty. -/
def httpdFsOpen (fs : Fs) (name : List UInt8) : Option Bool :=
  if fs.huge then
    if name = [] then some true
    else
      (storeAll fullpath FILE_NAME_PREFIX.length (name ++ [0])).map fun fullpath =>
        fs.opens (text fullpath)
  else some false

/-- `handle_output`, until it sends. -/
def handleOutput (fs : Fs) (s : HttpdState) : Option HttpdState :=
  (httpdFsOpen fs (text (s.filename ++ fs.following))).bind fun opened =>
    if opened then some s
    else
      (httpdFsOpen fs http404Html).bind fun _ =>
        (strcpy s.filename http404Html).map fun filename => { s with filename := filename }

/-- `httpd_appcall` on a new connection. -/
def connect (s : HttpdState) : HttpdState :=
  { s with filename := s.filename.set 0 0, output := false }

/-- `handle_input`, and `handle_output` when it gets there. -/
def request (fs : Fs) (s : HttpdState) (arrivals : List (List UInt8)) : Option HttpdState :=
  (handleInput s arrivals).bind fun
    | .output s => handleOutput fs s
    | .waiting | .closed => some s

/-- All stores of a request are inside the buffers, and it leaves strings in
them. -/
def BoundsSafe (fs : Fs) (s : HttpdState) (arrivals : List (List UInt8)) : Prop :=
  ∃ s', request fs (connect s) arrivals = some s' ∧ 0 ∈ s'.filename ∧ 0 ∈ s'.httpParams

/-- The second word of a line that begins with GET and has a name as its second
word, without what does not fit into the input buffer. -/
def target (line : List UInt8) : Option (List UInt8) :=
  if line.take 4 = httpGet ∧ (line.drop 4).head? = some ISO_slash ∧ ISO_space ∈ line.drop 4 then
    some (((line.drop 4).takeWhile (· ≠ ISO_space)).take 48)
  else none

/-- The name and the parameters fit into the buffers: a name with parameters
into `filename`, the parameters into `http_params`, and the name into `fullpath`
when there is memory for files.  Where the request brings no parameters of its
own, those of the last one on the connection are a string. -/
def Fits (fs : Fs) (s : HttpdState) (line : List UInt8) : Prop :=
  match target line with
  | none => 0 ∈ s.httpParams
  | some t =>
      if t = [ISO_slash] then 0 ∈ s.httpParams
      else
        match find [ISO_question] (text t) with
        | none => fs.huge = true → (text t).length ≤ FILE_NAME_MAX_SIZE
        | some n =>
            n < 20 ∧ (text t).length - (n + 1) < 30 ∧ (fs.huge = true → n ≤ FILE_NAME_MAX_SIZE)

variable {fs : Fs} {s : HttpdState} {dst src line t xs ys : List UInt8}
  {arrivals : List (List UInt8)}

/-! ### Strings -/

theorem strcpy_of_lt (h : src.length < dst.length) :
    strcpy dst src = some (src ++ 0 :: dst.drop (src.length + 1)) := by
  rw [strcpy, storeAll_eq_splice (by rw [List.length_append, List.length_singleton]; omega)]
  simp [splice]

theorem strcpy_of_le (h : dst.length ≤ src.length) : strcpy dst src = none :=
  storeAll_eq_none (by rw [List.length_append, List.length_singleton]; omega) (by simp)

/-- `strncpy` of the whole destination. -/
theorem strncpy_length (dst src : List UInt8) :
    strncpy dst src dst.length =
      some (src.take dst.length ++ List.replicate (dst.length - src.length) 0) := by
  have hlen : (src.take dst.length ++ List.replicate (dst.length - src.length) 0).length =
      dst.length := by
    rw [List.length_append, List.length_take, List.length_replicate]
    omega
  rw [strncpy, storeAll_eq_splice (by omega), splice, List.take_zero, List.nil_append,
    Nat.zero_add, hlen, List.drop_length, List.append_nil]

/-! ### Opening the file -/

/-- A name that is not empty, and how long it may be. -/
theorem httpdFsOpen_isSome (hname : xs ≠ []) :
    (∃ opened, httpdFsOpen fs xs = some opened) ↔
      (fs.huge = true → xs.length ≤ FILE_NAME_MAX_SIZE) := by
  rw [httpdFsOpen, if_neg hname]
  have hlen : fullpath.length = FILE_NAME_PREFIX.length + 1 + FILE_NAME_MAX_SIZE := rfl
  have hlen' : (xs ++ [0]).length = xs.length + 1 := by simp
  cases fs.huge with
  | false => simp
  | true =>
      rw [if_pos rfl]
      by_cases hfits : xs.length ≤ FILE_NAME_MAX_SIZE
      · rw [storeAll_eq_splice (by omega)]
        simp [hfits]
      · rw [storeAll_eq_none (by omega) (by simp)]
        simp [hfits]

theorem httpdFsOpen_http404Html (fs : Fs) : ∃ opened, httpdFsOpen fs http404Html = some opened :=
  (httpdFsOpen_isSome (List.cons_ne_nil _ _)).mpr fun _ => by decide

/-- **Opening the file.**  It is safe when the name is short enough, and leaves
strings. -/
theorem handleOutput_safe (hsize : s.filename.length = 20) (hname : text s.filename ≠ []) :
    (∃ s', handleOutput fs s = some s' ∧ 0 ∈ s'.filename ∧ 0 ∈ s'.httpParams) ↔
      0 ∈ s.httpParams ∧ (fs.huge = true → (text s.filename).length ≤ FILE_NAME_MAX_SIZE) := by
  have hcopy : strcpy s.filename http404Html =
      some (http404Html ++ 0 :: s.filename.drop (http404Html.length + 1)) :=
    strcpy_of_lt (by rw [hsize]; decide)
  obtain ⟨opened₀, hopen₀⟩ := httpdFsOpen_http404Html fs
  -- whether the first open gets to its end decides, unless the name has none
  have hopen : ∀ name, text (s.filename ++ fs.following) = name → name ≠ [] →
      ((∃ s', handleOutput fs s = some s' ∧ 0 ∈ s'.filename ∧ 0 ∈ s'.httpParams) ↔
        0 ∈ s.httpParams ∧ ∃ opened, httpdFsOpen fs name = some opened ∧
          (opened = true → 0 ∈ s.filename)) := by
    intro name heq hne
    rw [handleOutput, heq]
    cases h : httpdFsOpen fs name with
    | none => simp
    | some opened =>
        cases opened with
        | true => simp [and_comm]
        | false => simp [hopen₀, hcopy]
  by_cases hzero : 0 ∈ s.filename
  · rw [hopen _ (text_append_of_mem hzero _) hname, ← httpdFsOpen_isSome hname]
    simp [hzero]
  · have htext : text s.filename = s.filename := text_eq hzero
    have hlong : 20 ≤ (text (s.filename ++ fs.following)).length := by
      have hall : ∀ b ∈ s.filename, decide (b ≠ 0) = true := by
        intro b hb
        exact decide_eq_true fun heq => hzero (heq ▸ hb)
      rw [text, List.takeWhile_append_of_pos hall, List.length_append, hsize]
      omega
    have hne : text (s.filename ++ fs.following) ≠ [] := by
      intro hnil
      rw [hnil] at hlong
      cases hlong
    rw [hopen _ rfl hne, htext, hsize]
    cases hhuge : fs.huge with
    | false => simp [httpdFsOpen, hhuge]
    | true =>
        have hnone := (not_congr (@httpdFsOpen_isSome fs _ hne)).mpr (by
          intro hfits
          exact Nat.not_le.mpr (Nat.lt_of_lt_of_le (by decide) hlong) (hfits hhuge))
        have hno : ¬ (true = true → 20 ≤ FILE_NAME_MAX_SIZE) := by decide
        refine iff_of_false ?_ fun h => hno h.2
        intro h
        obtain ⟨opened, hopened, -⟩ := h.2
        exact hnone ⟨opened, hopened⟩

/-! ### Taking the line apart -/

/-- A byte of a list is replaced. -/
theorem store_append (xs : List UInt8) (b c : UInt8) (ys : List UInt8) :
    store (xs ++ b :: ys) xs.length c = some (xs ++ c :: ys) := by
  have hlt : xs.length < (xs ++ b :: ys).length := by
    rw [List.length_append, List.length_cons]
    omega
  rw [store, if_pos hlt]
  simp

theorem store_text {n : Nat} (hn : n < xs.length) (c : UInt8) (ys : List UInt8) :
    store (xs ++ ys) n c = some (xs.take n ++ c :: (xs.drop (n + 1) ++ ys)) := by
  have hlen : (xs.take n).length = n := by
    rw [List.length_take]
    omega
  have hsplit : xs = xs.take n ++ xs[n] :: xs.drop (n + 1) := by
    rw [← List.drop_eq_getElem_cons hn, List.take_append_drop]
  have hstore := store_append (xs.take n) xs[n] c (xs.drop (n + 1) ++ ys)
  rw [hlen, ← List.cons_append, ← List.append_assoc, ← hsplit] at hstore
  exact hstore

variable {u tail : List UInt8} {last : UInt8}

/-- The index page. -/
theorem handleTarget_index (hs : s.filename.length = 20)
    (hbuf : s.inputbuf = ISO_slash :: ISO_space :: tail) (datalen : Nat) :
    handleTarget s datalen = some (.output { s with
      filename := httpIndexPht ++ List.replicate 10 0, output := true }) := by
  rw [handleTarget, hbuf, hs]
  rfl

/-- What `strchr` is given is the line up to its end, or to a zero in it. -/
theorem handleTarget_eq (hbuf : s.inputbuf = (ISO_slash :: u) ++ last :: tail)
    (hspace : ISO_space ∉ u) (hne : u ≠ []) :
    ∃ ys, handleTarget s (u.length + 2) =
      match find [ISO_question] (text (ISO_slash :: u)) with
      | some n =>
          (store (text (ISO_slash :: u) ++ 0 :: ys) n 0).bind fun inputbuf =>
            (strcpy s.filename (text inputbuf)).bind fun filename =>
              (strcpy s.httpParams (text (inputbuf.drop (n + 1)))).map fun httpParams =>
                .output ⟨inputbuf, filename, httpParams, true⟩
      | none =>
          (strncpy s.filename (text (ISO_slash :: u)) s.filename.length).bind fun filename =>
            (store s.httpParams 0 0).map fun httpParams =>
              .output ⟨text (ISO_slash :: u) ++ 0 :: ys, filename, httpParams, true⟩ := by
  obtain ⟨ys, hys⟩ := @exists_eq_text ((ISO_slash :: u) ++ 0 :: tail) (by simp)
  rw [text_append_zero_left] at hys
  refine ⟨ys, ?_⟩
  have hzero : 0 ∉ text (ISO_slash :: u) := zero_not_mem_text _
  have hfirst : ¬ s.inputbuf[0]? ≠ some ISO_slash := by
    rw [hbuf]
    exact not_not_intro rfl
  have hsecond : ¬ s.inputbuf[1]? = some ISO_space := by
    obtain ⟨c, u', rfl⟩ := List.exists_cons_of_ne_nil hne
    rw [hbuf]
    intro heq
    obtain rfl := Option.some.inj heq
    exact hspace List.mem_cons_self
  have hend : ∀ b, store ((ISO_slash :: u) ++ b :: tail) (u.length + 2 - 1) 0 =
      some (text (ISO_slash :: u) ++ 0 :: ys) := by
    intro b
    rw [← hys]
    exact store_append (ISO_slash :: u) b 0 tail
  rw [handleTarget, if_neg hfirst, if_neg hsecond, hbuf, hend, Option.bind_some,
    strchr_eq (by decide) hzero, Option.bind_some]
  cases find [ISO_question] (text (ISO_slash :: u)) with
  | some n => rfl
  | none =>
      have hagain := hend 0
      rw [hys] at hagain
      simp only [hagain, Option.bind_some, text_append_zero hzero]

/-- A name is found before its end, and is not empty. -/
theorem find_question {n : Nat}
    (h : find [ISO_question] (text (ISO_slash :: u)) = some n) :
    n < (text (ISO_slash :: u)).length ∧ 0 < n := by
  have hle := find_le (List.cons_ne_nil _ _) h
  rw [List.length_singleton] at hle
  refine ⟨by omega, ?_⟩
  by_contra hzero
  have hn : n = 0 := by omega
  subst hn
  have hat := find_matches h
  rw [List.drop_zero] at hat
  have hhead : text (ISO_slash :: u) = ISO_slash :: text u := rfl
  rw [hhead, List.cons_prefix_cons] at hat
  exact absurd hat.1 (by decide)

/-- What `handle_target` and the opening of the file do is safe. -/
def TargetSafe (fs : Fs) (s : HttpdState) (datalen : Nat) : Prop :=
  ∃ s₁ s', handleTarget s datalen = some (.output s₁) ∧ handleOutput fs s₁ = some s' ∧
    0 ∈ s'.filename ∧ 0 ∈ s'.httpParams

theorem targetSafe_of_output {s₁ : HttpdState} {datalen : Nat}
    (h : handleTarget s datalen = some (.output s₁)) (hsize : s₁.filename.length = 20)
    (hname : text s₁.filename ≠ []) :
    TargetSafe fs s datalen ↔
      0 ∈ s₁.httpParams ∧ (fs.huge = true → (text s₁.filename).length ≤ FILE_NAME_MAX_SIZE) := by
  rw [← handleOutput_safe hsize hname, TargetSafe]
  constructor
  · intro hsafe
    obtain ⟨s₂, s', heq, hrest⟩ := hsafe
    rw [h, Option.some.injEq, Input.output.injEq] at heq
    subst heq
    exact ⟨s', hrest⟩
  · intro hsafe
    obtain ⟨s', hrest⟩ := hsafe
    exact ⟨s₁, s', h, hrest⟩

theorem not_targetSafe {datalen : Nat} (h : handleTarget s datalen = none) :
    ¬ TargetSafe fs s datalen := by
  intro hsafe
  obtain ⟨s₁, s', heq, -⟩ := hsafe
  cases h.symm.trans heq

/-- A line with parameters. -/
theorem targetSafe_params {n : Nat} (hs : s.Sized)
    (hbuf : s.inputbuf = (ISO_slash :: u) ++ last :: tail) (hspace : ISO_space ∉ u) (hne : u ≠ [])
    (hfind : find [ISO_question] (text (ISO_slash :: u)) = some n) :
    TargetSafe fs s (u.length + 2) ↔
      n < 20 ∧ (text (ISO_slash :: u)).length - (n + 1) < 30 ∧
        (fs.huge = true → n ≤ FILE_NAME_MAX_SIZE) := by
  obtain ⟨ys, htarget⟩ := handleTarget_eq hbuf hspace hne
  obtain ⟨hn, hpos⟩ := find_question hfind
  have hzero : 0 ∉ text (ISO_slash :: u) := zero_not_mem_text _
  rw [hfind] at htarget
  generalize text (ISO_slash :: u) = t at *
  have htake : 0 ∉ t.take n := fun h => hzero (List.mem_of_mem_take h)
  have hdrop : 0 ∉ t.drop (n + 1) := fun h => hzero (List.mem_of_mem_drop h)
  have hlen : (t.take n).length = n := by
    rw [List.length_take]
    exact Nat.min_eq_left (Nat.le_of_lt hn)
  have hparams : (t.drop (n + 1)).length = t.length - (n + 1) := List.length_drop
  have hafter : (t.take n ++ 0 :: (t.drop (n + 1) ++ 0 :: ys)).drop (n + 1) =
      t.drop (n + 1) ++ 0 :: ys := by
    rw [List.drop_append, hlen, List.drop_of_length_le (by omega), Nat.add_sub_cancel_left]
    rfl
  simp only [store_text hn, Option.bind_some, text_append_zero htake, hafter,
    text_append_zero hdrop] at htarget
  by_cases hname : n < 20
  · have hcopy : strcpy s.filename (t.take n) =
        some (t.take n ++ 0 :: s.filename.drop (n + 1)) := by
      rw [strcpy_of_lt (by rw [hlen, hs.filename]; exact hname), hlen]
    rw [hcopy, Option.bind_some] at htarget
    by_cases hfits : t.length - (n + 1) < 30
    · rw [strcpy_of_lt (by rw [hparams, hs.httpParams]; exact hfits), Option.map_some] at htarget
      have htext : text (t.take n ++ 0 :: s.filename.drop (n + 1)) = t.take n :=
        text_append_zero htake _
      have hne' : t.take n ≠ [] := by
        rw [← List.length_pos_iff, hlen]
        exact hpos
      rw [targetSafe_of_output htarget]
      · rw [htext, hlen]
        simp [hname, hfits]
      · rw [List.length_append, List.length_cons, List.length_drop, hlen, hs.filename]
        omega
      · rw [htext]
        exact hne'
    · rw [strcpy_of_le (by rw [hparams, hs.httpParams]; exact Nat.not_lt.mp hfits),
        Option.map_none] at htarget
      exact iff_of_false (not_targetSafe htarget) fun h => hfits h.2.1
  · rw [strcpy_of_le (by rw [hlen, hs.filename]; exact Nat.not_lt.mp hname),
      Option.bind_none] at htarget
    exact iff_of_false (not_targetSafe htarget) fun h => hname h.1

/-- A line without parameters. -/
theorem targetSafe_name (hs : s.Sized) (hbuf : s.inputbuf = (ISO_slash :: u) ++ last :: tail)
    (hspace : ISO_space ∉ u) (hne : u ≠ [])
    (hfind : find [ISO_question] (text (ISO_slash :: u)) = none) :
    TargetSafe fs s (u.length + 2) ↔
      (fs.huge = true → (text (ISO_slash :: u)).length ≤ FILE_NAME_MAX_SIZE) := by
  obtain ⟨ys, htarget⟩ := handleTarget_eq hbuf hspace hne
  have hzero : 0 ∉ text (ISO_slash :: u) := zero_not_mem_text _
  have hne' : text (ISO_slash :: u) ≠ [] := List.cons_ne_nil ISO_slash (text u)
  have hstore : store s.httpParams 0 0 = some (s.httpParams.set 0 0) := by
    rw [store, if_pos (by rw [hs.httpParams]; decide)]
  rw [hfind] at htarget
  generalize text (ISO_slash :: u) = t at *
  have hcopy := strncpy_length s.filename t
  rw [hs.filename] at hcopy
  simp only [hs.filename, hcopy, Option.bind_some, hstore, Option.map_some] at htarget
  have htext : text (t.take 20 ++ List.replicate (20 - t.length) 0) = t.take 20 := by
    have htake : 0 ∉ t.take 20 := fun h => hzero (List.mem_of_mem_take h)
    cases hpad : 20 - t.length with
    | zero => rw [List.replicate_zero, List.append_nil, text_eq htake]
    | succ m => rw [List.replicate_succ, text_append_zero htake]
  rw [targetSafe_of_output htarget]
  · have hmem : 0 ∈ s.httpParams.set 0 0 :=
      List.mem_set (by rw [hs.httpParams]; decide) 0
    have hlen : (t.take 20).length ≤ FILE_NAME_MAX_SIZE ↔ t.length ≤ FILE_NAME_MAX_SIZE := by
      rw [List.length_take, FILE_NAME_MAX_SIZE]
      omega
    rw [htext, hlen]
    exact and_iff_right hmem
  · rw [List.length_append, List.length_take, List.length_replicate]
    omega
  · rw [htext]
    obtain ⟨c, t', rfl⟩ := List.exists_cons_of_ne_nil hne'
    exact List.cons_ne_nil _ _

/-- The line of the index page. -/
theorem targetSafe_index (hs : s.Sized) (hbuf : s.inputbuf = ISO_slash :: ISO_space :: tail)
    (datalen : Nat) : TargetSafe fs s datalen ↔ 0 ∈ s.httpParams := by
  have htext : text (httpIndexPht ++ List.replicate 10 0) = httpIndexPht := by decide
  rw [targetSafe_of_output (handleTarget_index hs.filename hbuf datalen) rfl]
  · rw [htext]
    exact and_iff_left fun _ => by decide
  · rw [htext]
    exact List.cons_ne_nil _ _

/-! ### Reading the line -/

/-- A word up to the space after it is GET exactly if the line begins with it. -/
theorem take_four_eq (hxs : ISO_space ∉ xs) (ys : List UInt8) :
    (xs ++ ISO_space :: ys).take 4 = httpGet ↔ xs = [0x47, 0x45, 0x54] := by
  constructor
  · intro h
    match xs, hxs, h with
    | [], _, h => exact absurd (List.cons.inj h).1 (by decide)
    | [a], _, h => exact absurd (List.cons.inj (List.cons.inj h).2).1 (by decide)
    | [a, b], _, h =>
        exact absurd (List.cons.inj (List.cons.inj (List.cons.inj h).2).2).1 (by decide)
    | [a, b, c], _, h =>
        obtain ⟨ha, hrest⟩ := List.cons.inj h
        obtain ⟨hb, hrest⟩ := List.cons.inj hrest
        rw [ha, hb, (List.cons.inj hrest).1]
    | a :: b :: c :: d :: xs, hxs, h =>
        have hd := (List.cons.inj (List.cons.inj (List.cons.inj (List.cons.inj h).2).2).2).1
        exact absurd (by rw [hd]; simp [ISO_space]) hxs
  · intro h
    rw [h]
    rfl

/-- The input buffer after a word: as much of it as fits, and at least one more
byte. -/
theorem after_word {mem : List UInt8} (hmem : mem.length = 50) (xs : List UInt8) :
    ∃ last tail, ((bufSetup mem 49).after (xs ++ [ISO_space])).mem =
        xs.take 48 ++ last :: tail ∧
      (xs.length ≤ 48 → last = ISO_space) ∧ (xs.take 48 ++ last :: tail).length = 50 ∧
      ((bufSetup mem 49).after (xs ++ [ISO_space])).datalen = (xs.take 48).length + 1 := by
  have hdata : ((bufSetup mem 49).after (xs ++ [ISO_space])).datalen = (xs.take 48).length + 1 := by
    show 49 - (49 - (xs ++ [ISO_space]).length) = _
    rw [List.length_append, List.length_singleton, List.length_take]
    omega
  obtain ⟨last, hword, hlast⟩ : ∃ last, (xs ++ [ISO_space]).take 49 = xs.take 48 ++ [last] ∧
      (xs.length ≤ 48 → last = ISO_space) := by
    by_cases hfits : xs.length ≤ 48
    · refine ⟨ISO_space, ?_, fun _ => rfl⟩
      rw [List.take_of_length_le hfits, List.take_of_length_le]
      rw [List.length_append, List.length_singleton]
      omega
    · have hlt : 48 < xs.length := by omega
      refine ⟨xs[48], ?_, fun h => absurd h hfits⟩
      rw [List.take_append_of_le_length (by omega), List.take_succ_eq_append_getElem hlt]
  refine ⟨last, mem.drop (xs.take 48 ++ [last]).length, ?_, hlast, ?_, hdata⟩
  · show splice mem (49 - 49) ((xs ++ [ISO_space]).take 49) = _
    rw [hword, splice, Nat.sub_self, List.take_zero, List.nil_append, Nat.zero_add,
      List.append_assoc]
    rfl
  · rw [List.length_append, List.length_cons, List.length_drop, List.length_append,
      List.length_singleton, List.length_take, hmem]
    omega

/-- The first word that is read is GET exactly if it is. -/
theorem take_four_word {last : UInt8} (hxs : ISO_space ∉ xs)
    (hlast : xs.length ≤ 48 → last = ISO_space) (tail : List UInt8) :
    (xs.take 48 ++ last :: tail).take 4 = httpGet ↔ xs = [0x47, 0x45, 0x54] := by
  by_cases hfits : xs.length ≤ 48
  · rw [List.take_of_length_le hfits, hlast hfits]
    exact take_four_eq hxs tail
  · refine iff_of_false ?_ ?_
    · intro h
      have hmem : ISO_space ∈ (xs.take 48 ++ last :: tail).take 4 := by
        rw [h]
        decide
      rw [List.take_append_of_le_length (by rw [List.length_take]; omega)] at hmem
      exact hxs (List.mem_of_mem_take (List.mem_of_mem_take hmem))
    · intro h
      rw [h] at hfits
      exact hfits (by decide)

theorem valid_bufSetup {mem : List UInt8} (hmem : mem.length = 50) : (bufSetup mem 49).Valid :=
  ⟨Nat.le_refl 49, show 49 ≤ mem.length by omega⟩

/-- The first word, when there is one. -/
theorem handleInput_of_space (hs : s.Sized) (hline : arrivals.flatten = xs ++ ISO_space :: ys)
    (hxs : ISO_space ∉ xs) :
    (xs ≠ [0x47, 0x45, 0x54] ∧ handleInput s arrivals = some .closed) ∨
    (xs = [0x47, 0x45, 0x54] ∧ ∃ mem data arrivals', mem.length = 50 ∧
      data ++ arrivals'.flatten = ys ∧
      handleInput s arrivals = (psockReadto mem 49 ISO_space data arrivals').bind fun
        | .waiting => some .waiting
        | .done buf _ _ => handleTarget { s with inputbuf := buf.mem } buf.datalen) := by
  have hstream : [] ++ arrivals.flatten = xs ++ ISO_space :: ys := hline
  obtain ⟨data, arrivals', hrun, hrest⟩ :=
    readtoLoop_done (valid_bufSetup hs.inputbuf) hstream hxs
  obtain ⟨last, tail, hmem, hlast, hlen, -⟩ := after_word hs.inputbuf xs
  have hfour := take_four_word hxs hlast tail
  by_cases hget : xs = [0x47, 0x45, 0x54]
  · refine .inr ⟨hget, _, data, arrivals', hlen, hrest, ?_⟩
    rw [handleInput, psockReadto, hrun]
    simp only [Option.bind_some, hmem, hfour.mpr hget]
    rfl
  · refine .inl ⟨hget, ?_⟩
    rw [handleInput, psockReadto, hrun]
    have hno : (xs.take 48 ++ last :: tail).take 4 ≠ httpGet := fun h => hget (hfour.mp h)
    simp only [Option.bind_some, hmem, if_pos hno]

/-- A line that begins with GET. -/
theorem eq_of_take_four (h : line.take 4 = httpGet) :
    line = [0x47, 0x45, 0x54] ++ ISO_space :: line.drop 4 := by
  conv_lhs => rw [← List.take_append_drop 4 line, h]
  rfl

/-- What is read of the second word. -/
theorem handleInput_of_target (hs : s.Sized) (ht : target arrivals.flatten = some t) :
    ∃ u last tail, t = ISO_slash :: u ∧ ISO_space ∉ u ∧ (u = [] → last = ISO_space) ∧
      (t ++ last :: tail).length = 50 ∧
      handleInput s arrivals =
        handleTarget { s with inputbuf := t ++ last :: tail } (u.length + 2) := by
  simp only [target, Option.ite_none_right_eq_some, Option.some.injEq] at ht
  obtain ⟨⟨hget, hslash, hspace⟩, rfl⟩ := ht
  obtain ⟨hne, -⟩ | ⟨-, mem, data, arrivals', hlen, hrest, hrun⟩ :=
    handleInput_of_space hs (eq_of_take_four hget) (by decide)
  · exact absurd rfl hne
  obtain ⟨xs, ys, hword, hxs⟩ := List.eq_append_cons_of_mem hspace
  have htake : (arrivals.flatten.drop 4).takeWhile (· ≠ ISO_space) = xs := by
    have hall : ∀ c ∈ xs, decide (c ≠ ISO_space) = true := by
      intro c hc
      exact decide_eq_true fun heq => hxs (heq ▸ hc)
    rw [hword, List.takeWhile_append_of_pos hall, List.takeWhile_cons_of_neg (by simp),
      List.append_nil]
  obtain ⟨r, rfl⟩ : ∃ r, xs = ISO_slash :: r := by
    cases xs with
    | nil =>
        rw [hword] at hslash
        exact absurd (Option.some.inj hslash) (by decide)
    | cons c r =>
        rw [hword] at hslash
        exact ⟨r, by rw [Option.some.inj hslash]⟩
  rw [htake]
  rw [hword] at hrest
  obtain ⟨data₂, arrivals₂, hloop, -⟩ := readtoLoop_done (valid_bufSetup hlen) hrest hxs
  obtain ⟨last, tail, hmem, hlast, hlen₂, hdata⟩ := after_word hlen (ISO_slash :: r)
  refine ⟨r.take 47, last, tail, rfl, ?_, ?_, hlen₂, ?_⟩
  · intro h
    exact hxs (List.mem_cons_of_mem _ (List.mem_of_mem_take h))
  · intro hnil
    apply hlast
    have hlenr := congrArg List.length hnil
    rw [List.length_take, List.length_nil] at hlenr
    rw [List.length_cons]
    omega
  · rw [hrun, psockReadto, hloop]
    simp only [Option.bind_some, hmem, hdata]
    rfl

/-- A line that has no such second word. -/
theorem handleInput_of_no_target (hs : s.Sized) (ht : target arrivals.flatten = none) :
    handleInput s arrivals = some .waiting ∨ handleInput s arrivals = some .closed := by
  by_cases hspace : ISO_space ∈ arrivals.flatten
  · obtain ⟨xs, ys, hline, hxs⟩ := List.eq_append_cons_of_mem hspace
    obtain ⟨-, hclosed⟩ | ⟨rfl, mem, data, arrivals', hlen, hrest, hrun⟩ :=
      handleInput_of_space hs hline hxs
    · exact .inr hclosed
    rw [hline] at ht
    have hno : ¬ (ys.head? = some ISO_slash ∧ ISO_space ∈ ys) := by
      intro h
      rw [target, if_pos ⟨rfl, h.1, h.2⟩] at ht
      cases ht
    by_cases hsecond : ISO_space ∈ ys
    · obtain ⟨zs, ws, rfl, hzs⟩ := List.eq_append_cons_of_mem hsecond
      obtain ⟨data₂, arrivals₂, hloop, -⟩ := readtoLoop_done (valid_bufSetup hlen) hrest hzs
      obtain ⟨last, tail, hmem, hlast, -, -⟩ := after_word hlen zs
      right
      have hfirst : (zs.take 48 ++ last :: tail)[0]? ≠ some ISO_slash := by
        cases zs with
        | nil =>
            intro heq
            rw [hlast (Nat.zero_le _)] at heq
            exact absurd (Option.some.inj heq) (by decide)
        | cons c zs =>
            intro heq
            exact hno ⟨heq, hsecond⟩
      rw [hrun, psockReadto, hloop]
      simp only [Option.bind_some, hmem, handleTarget, if_pos hfirst]
    · left
      rw [hrun, psockReadto, readtoLoop_waiting (valid_bufSetup hlen) (hrest ▸ hsecond)]
      rfl
  · left
    rw [handleInput, psockReadto, readtoLoop_waiting (valid_bufSetup hs.inputbuf) hspace]
    rfl

/-- A name goes on to the output. -/
theorem handleTarget_output {datalen : Nat} {r : Input} (hslash : s.inputbuf[0]? = some ISO_slash)
    (h : handleTarget s datalen = some r) : ∃ s₁, r = .output s₁ := by
  rw [handleTarget, if_neg (not_not_intro hslash)] at h
  split at h
  · obtain ⟨filename, -, rfl⟩ := Option.map_eq_some_iff.mp h
    exact ⟨_, rfl⟩
  · obtain ⟨inputbuf, -, h⟩ := Option.bind_eq_some_iff.mp h
    obtain ⟨params, -, h⟩ := Option.bind_eq_some_iff.mp h
    cases params with
    | some n =>
        obtain ⟨inputbuf, -, h⟩ := Option.bind_eq_some_iff.mp h
        obtain ⟨filename, -, h⟩ := Option.bind_eq_some_iff.mp h
        obtain ⟨httpParams, -, rfl⟩ := Option.map_eq_some_iff.mp h
        exact ⟨_, rfl⟩
    | none =>
        obtain ⟨inputbuf, -, h⟩ := Option.bind_eq_some_iff.mp h
        obtain ⟨filename, -, h⟩ := Option.bind_eq_some_iff.mp h
        obtain ⟨httpParams, -, rfl⟩ := Option.map_eq_some_iff.mp h
        exact ⟨_, rfl⟩

/-- A request with a name is as safe as what is done with the name. -/
theorem request_safe_iff {s₂ : HttpdState} {datalen : Nat}
    (hinput : handleInput s arrivals = handleTarget s₂ datalen)
    (hslash : s₂.inputbuf[0]? = some ISO_slash) :
    (∃ s', request fs s arrivals = some s' ∧ 0 ∈ s'.filename ∧ 0 ∈ s'.httpParams) ↔
      TargetSafe fs s₂ datalen := by
  rw [request, hinput, TargetSafe]
  constructor
  · intro h
    obtain ⟨s', hrun, hsafe⟩ := h
    obtain ⟨r, hr, hout⟩ := Option.bind_eq_some_iff.mp hrun
    obtain ⟨s₁, rfl⟩ := handleTarget_output hslash hr
    exact ⟨s₁, s', hr, hout, hsafe⟩
  · intro h
    obtain ⟨s₁, s', hr, hout, hsafe⟩ := h
    exact ⟨s', by rw [hr, Option.bind_some]; exact hout, hsafe⟩

/-- **The bounds of the request line.**  All stores are inside the buffers, and
strings are left in them, exactly if the parts of the line fit. -/
theorem boundsSafe_iff (hs : s.Sized) : BoundsSafe fs s arrivals ↔ Fits fs s arrivals.flatten := by
  have hconnect : (connect s).Sized :=
    ⟨hs.inputbuf, by rw [connect, List.length_set]; exact hs.filename, hs.httpParams⟩
  have hfilename : 0 ∈ (connect s).filename :=
    List.mem_set (by rw [hs.filename]; decide) 0
  rw [BoundsSafe, Fits]
  cases ht : target arrivals.flatten with
  | none =>
      have hrun : request fs (connect s) arrivals = some (connect s) := by
        rcases handleInput_of_no_target hconnect ht with h | h
        · rw [request, h]
          rfl
        · rw [request, h]
          rfl
      rw [hrun]
      constructor
      · intro h
        obtain ⟨s', heq, -, hparams⟩ := h
        obtain rfl := Option.some.inj heq
        exact hparams
      · intro h
        exact ⟨_, rfl, hfilename, h⟩
  | some t =>
      obtain ⟨u, last, tail, rfl, hspace, hlast, hlen, hinput⟩ := handleInput_of_target hconnect ht
      have hsized : HttpdState.Sized { connect s with inputbuf := ISO_slash :: u ++ last :: tail } :=
        ⟨hlen, hconnect.filename, hconnect.httpParams⟩
      rw [request_safe_iff hinput rfl]
      by_cases hu : u = []
      · subst hu
        obtain rfl := hlast rfl
        exact targetSafe_index hsized rfl _
      · have hne : ISO_slash :: u ≠ [ISO_slash] := fun h => hu (List.cons.inj h).2
        simp only [if_neg hne]
        cases hfind : find [ISO_question] (text (ISO_slash :: u)) with
        | none => exact targetSafe_name hsized rfl hspace hu hfind
        | some n => exact targetSafe_params hsized rfl hspace hu hfind

/-- A state as it is when the server starts. -/
def start : HttpdState :=
  ⟨List.replicate 50 0, List.replicate 20 0, List.replicate 30 0, false⟩

/-- The line "GET /a?x ", in two pieces. -/
theorem boundsSafe_two_pieces :
    BoundsSafe ⟨true, fun _ => true, [0]⟩ start
        [[0x47, 0x45, 0x54, 0x20, 0x2f], [0x61, 0x3f, 0x78, 0x20]] ↔
      Fits ⟨true, fun _ => true, [0]⟩ start
        [[0x47, 0x45, 0x54, 0x20, 0x2f], [0x61, 0x3f, 0x78, 0x20]].flatten :=
  boundsSafe_iff ⟨rfl, rfl, rfl⟩

/-- The line "GET /aaaaaaaaaa ": a name of eleven characters does not fit into
`fullpath`. -/
theorem not_boundsSafe_long_name :
    ¬ ∀ (fs : Fs) (s : HttpdState) (arrivals : List (List UInt8)), s.Sized →
      0 ∈ s.httpParams → BoundsSafe fs s arrivals := by
  intro h
  obtain ⟨s', hrun, -⟩ := h ⟨true, fun _ => true, [0]⟩ start
    [httpGet ++ ISO_slash :: List.replicate 10 0x61 ++ [ISO_space]] ⟨rfl, rfl, rfl⟩ (by decide)
  cases hrun

end Httpd.Request
