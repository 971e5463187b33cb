import Mathlib.Algebra.BigOperators.Group.List.Basic
import Mathlib.Algebra.Order.Ring.Nat
import Mathlib.Data.List.Induction
import Kyora.Mcp.Listing

/-! # Listing tools page by page

  A listing asks for one page after another, each with the cursor that the page
  before it named, until a page names none. Servers are not trusted to stop:
  the pages, the tools and the bytes of their definitions are bounded, and the
  bounds are checked before the next page is asked for.

  * `Progress.reply`: what one reply makes of a listing.
  * `progress`: the listing after some replies.
  * `asked`: the cursors of the requests it has made by then.

  What a server answers may depend on the cursors it was sent, so a property of
  all lists of replies is a property of all servers.
-/

namespace Kyora.Mcp

/-! ### One reply -/

def maxListPages : Nat := 100

def maxTools : Nat := 1024

def maxListingBytes : Nat := 8 * 1024 * 1024

/-- What a `tools/list` request comes to. -/
inductive Reply where
  | page (tools : List RemoteTool) (nextCursor : Option String)
  /-- A response to something else. -/
  | unexpected
  /-- A failed request, with its description. -/
  | error (description : String)
  | cancelled
  | timedOut

/-- What the loop carries from one page to the next. -/
structure Collected where
  listed : List RemoteTool
  bytes : Nat
  cursor : Option String

/-- A listing under way or at its end. -/
inductive Progress where
  /-- A request with this cursor is out. `left` counts it and those that may follow. -/
  | asking (left : Nat) (collected : Collected)
  | done (listed : List RemoteTool)
  | failed (message : String)

def Progress.start : Progress := .asking maxListPages ⟨[], 0, none⟩

/-- The next round of the loop, if there is one. -/
def Progress.again (left : Nat) (collected : Collected) : Progress :=
  match left with
  | 0 => .failed ("tools/list did not finish within " ++ toString maxListPages ++ " pages")
  | left + 1 => .asking (left + 1) collected

/-- What a page adds. `size` is the length of a serialized definition. -/
def Collected.page (size : RemoteTool → Nat) (collected : Collected) (left : Nat)
    (tools : List RemoteTool) (nextCursor : Option String) : Progress :=
  let bytes := collected.bytes + (tools.map size).sum
  let listed := collected.listed ++ tools
  if maxTools < listed.length then
    .failed ("the server offers more than " ++ toString maxTools ++ " tools")
  else if maxListingBytes < bytes then
    .failed ("the server's tool definitions exceed " ++ toString maxListingBytes ++ " bytes")
  else match nextCursor with
    | some next => if next ≠ "" then .again left ⟨listed, bytes, some next⟩ else .done listed
    | none => .done listed

/-- The loop body, from the reply on. -/
def Progress.reply (size : RemoteTool → Nat) : Progress → Reply → Progress
  | .asking left collected, reply =>
    match reply with
    | .page tools nextCursor => collected.page size (left - 1) tools nextCursor
    | .unexpected => .failed "tools/list: unexpected response"
    | .error description => .failed ("tools/list: " ++ description)
    | .cancelled => .failed "tools/list cancelled"
    | .timedOut => .failed "tools/list timed out"
  | progress, _ => progress

/-- The listing after these replies. -/
def progress (size : RemoteTool → Nat) (replies : List Reply) : Progress :=
  replies.foldl (Progress.reply size) .start

/-- The cursors of the requests made while these replies come in. -/
def asked (size : RemoteTool → Nat) : Progress → List Reply → List (Option String)
  | .asking _ collected, [] => [collected.cursor]
  | .asking left collected, reply :: replies =>
    collected.cursor :: asked size (Progress.reply size (.asking left collected) reply) replies
  | _, _ => []

/-! ### Pages -/

/-- The tools of a page. -/
def Reply.tools : Reply → List RemoteTool
  | .page tools _ => tools
  | _ => []

/-- The cursor of the page after this one. -/
def Reply.following : Reply → Option String
  | .page _ (some next) => if next ≠ "" then some next else none
  | _ => none

/-- A page that names no other. -/
def Reply.IsLast (reply : Reply) : Prop :=
  (∃ tools nextCursor, reply = .page tools nextCursor) ∧ reply.following = none

/-- The tools of some pages. -/
def toolsOf (pages : List Reply) : List RemoteTool := pages.flatMap Reply.tools

/-- The cursor after some pages: that of the last one. -/
def cursorAfter (pages : List Reply) : Option String :=
  (pages.getLast?.map Reply.following).join

/-- The bounds on the tools of a server. -/
def Within (size : RemoteTool → Nat) (tools : List RemoteTool) : Prop :=
  tools.length ≤ maxTools ∧ (tools.map size).sum ≤ maxListingBytes

/-- Why the reply after some pages ends a listing without a result. -/
inductive Refused (size : RemoteTool → Nat) (pages : List Reply) : Reply → String → Prop where
  | unexpected : Refused size pages .unexpected "tools/list: unexpected response"
  | error (description : String) :
      Refused size pages (.error description) ("tools/list: " ++ description)
  | cancelled : Refused size pages .cancelled "tools/list cancelled"
  | timedOut : Refused size pages .timedOut "tools/list timed out"
  | tools (tools : List RemoteTool) (nextCursor : Option String)
      (h : maxTools < (toolsOf pages ++ tools).length) :
      Refused size pages (.page tools nextCursor)
        ("the server offers more than " ++ toString maxTools ++ " tools")
  | bytes (tools : List RemoteTool) (nextCursor : Option String)
      (hcount : (toolsOf pages ++ tools).length ≤ maxTools)
      (h : maxListingBytes < ((toolsOf pages ++ tools).map size).sum) :
      Refused size pages (.page tools nextCursor)
        ("the server's tool definitions exceed " ++ toString maxListingBytes ++ " bytes")
  | pages (tools : List RemoteTool) (nextCursor : Option String)
      (hwithin : Within size (toolsOf pages ++ tools))
      (hnext : (Reply.page tools nextCursor).following ≠ none)
      (h : pages.length + 1 = maxListPages) :
      Refused size pages (.page tools nextCursor)
        ("tools/list did not finish within " ++ toString maxListPages ++ " pages")

section

variable {size : RemoteTool → Nat} {pages : List Reply} {tools listed : List RemoteTool}

theorem toolsOf_concat (pages : List Reply) (reply : Reply) :
    toolsOf (pages ++ [reply]) = toolsOf pages ++ reply.tools := by
  rw [toolsOf, List.flatMap_append, List.flatMap_singleton, toolsOf]

@[simp] theorem cursorAfter_concat (pages : List Reply) (reply : Reply) :
    cursorAfter (pages ++ [reply]) = reply.following := by
  simp [cursorAfter]

/-- Fewer tools stay within the bounds. -/
theorem Within.of_append {more : List RemoteTool} (h : Within size (tools ++ more)) :
    Within size tools := by
  obtain ⟨hcount, hbytes⟩ := h
  rw [List.length_append] at hcount
  rw [List.map_append, List.sum_append] at hbytes
  exact ⟨by omega, by omega⟩

/-- Only a page names another one. -/
theorem Reply.page_of_following {reply : Reply} {next : String}
    (h : reply.following = some next) :
    reply = .page reply.tools (some next) ∧ next ≠ "" := by
  unfold Reply.following at h
  split at h
  next tools name =>
    split at h
    next hname =>
      obtain rfl := Option.some.inj h
      exact ⟨rfl, hname⟩
    next => cases h
  next => cases h

/-! ### A listing under way -/

/-- Where a listing stands after pages that all name another one. -/
def standing (size : RemoteTool → Nat) (pages : List Reply) : Progress :=
  .asking (maxListPages - pages.length)
    ⟨toolsOf pages, ((toolsOf pages).map size).sum, cursorAfter pages⟩

/-- The pages of a listing that goes on. -/
structure Followed (size : RemoteTool → Nat) (pages : List Reply) : Prop where
  next : ∀ page ∈ pages, page.following ≠ none
  within : Within size (toolsOf pages)
  short : pages.length < maxListPages

theorem Followed.nil (size : RemoteTool → Nat) : Followed size [] where
  next := by
    intro page hpage
    cases hpage
  within := ⟨Nat.zero_le _, Nat.zero_le _⟩
  short := by decide

/-- What the reply after such pages makes of the listing. -/
theorem Followed.reply (h : Followed size pages) (reply : Reply) :
    (Followed size (pages ++ [reply]) ∧
        (standing size pages).reply size reply = standing size (pages ++ [reply])) ∨
      (reply.IsLast ∧ Within size (toolsOf (pages ++ [reply])) ∧
        (standing size pages).reply size reply = .done (toolsOf (pages ++ [reply]))) ∨
      ∃ message, Refused size pages reply message ∧
        (standing size pages).reply size reply = .failed message := by
  cases reply with
  | unexpected => exact .inr (.inr ⟨_, .unexpected, rfl⟩)
  | error description => exact .inr (.inr ⟨_, .error description, rfl⟩)
  | cancelled => exact .inr (.inr ⟨_, .cancelled, rfl⟩)
  | timedOut => exact .inr (.inr ⟨_, .timedOut, rfl⟩)
  | page tools nextCursor =>
    have hall : toolsOf (pages ++ [Reply.page tools nextCursor]) = toolsOf pages ++ tools :=
      toolsOf_concat pages _
    have hsum : ((toolsOf pages).map size).sum + (tools.map size).sum =
        ((toolsOf pages ++ tools).map size).sum := by
      rw [List.map_append, List.sum_append]
    simp only [standing, Progress.reply, Collected.page, hsum, hall]
    by_cases hcount : maxTools < (toolsOf pages ++ tools).length
    · rw [if_pos hcount]
      exact .inr (.inr ⟨_, .tools tools nextCursor hcount, rfl⟩)
    rw [if_neg hcount]
    by_cases hbytes : maxListingBytes < ((toolsOf pages ++ tools).map size).sum
    · rw [if_pos hbytes]
      exact .inr (.inr ⟨_, .bytes tools nextCursor (Nat.le_of_not_lt hcount) hbytes, rfl⟩)
    rw [if_neg hbytes]
    have hwithin : Within size (toolsOf pages ++ tools) :=
      ⟨Nat.le_of_not_lt hcount, Nat.le_of_not_lt hbytes⟩
    cases nextCursor with
    | none => exact .inr (.inl ⟨⟨⟨tools, none, rfl⟩, rfl⟩, hwithin, rfl⟩)
    | some next =>
      by_cases hnext : next = ""
      · have hlast : (Reply.page tools (some next)).following = none := if_neg (not_not.mpr hnext)
        exact .inr (.inl ⟨⟨⟨tools, some next, rfl⟩, hlast⟩, hwithin, if_neg (not_not.mpr hnext)⟩)
      have hfollowing : (Reply.page tools (some next)).following = some next := if_pos hnext
      simp only [ne_eq, hnext, not_false_eq_true, if_true]
      by_cases hmore : pages.length + 1 = maxListPages
      -- the bound on the pages is checked after the page is taken
      · have hleft : maxListPages - pages.length - 1 = 0 := by omega
        rw [hleft]
        refine .inr (.inr ⟨_, .pages tools (some next) hwithin ?_ hmore, rfl⟩)
        rw [hfollowing]
        exact Option.some_ne_none next
      · have hshort := h.short
        obtain ⟨left, hleft⟩ : ∃ left, maxListPages - pages.length - 1 = left + 1 :=
          ⟨maxListPages - pages.length - 2, by omega⟩
        rw [hleft]
        refine .inl ⟨⟨?_, hall ▸ hwithin, ?_⟩, ?_⟩
        · intro page hpage
          rcases List.mem_append.mp hpage with hpage | hpage
          · exact h.next page hpage
          · rw [List.mem_singleton.mp hpage, hfollowing]
            exact Option.some_ne_none next
        · rw [List.length_append, List.length_singleton]
          omega
        · rw [cursorAfter_concat, hfollowing, List.length_append, List.length_singleton,
            ← Nat.sub_sub, hleft]
          rfl

/-! ### The end of a listing -/

/-- Nothing changes the end of a listing. -/
theorem foldl_done (replies : List Reply) :
    replies.foldl (Progress.reply size) (.done listed) = .done listed := by
  induction replies with
  | nil => rfl
  | cons reply replies ih => exact ih

theorem foldl_failed {message : String} (replies : List Reply) :
    replies.foldl (Progress.reply size) (.failed message) = .failed message := by
  induction replies with
  | nil => rfl
  | cons reply replies ih => exact ih

/-- What a listing has come to, for the pages that go on and the replies after them. -/
inductive Outcome (size : RemoteTool → Nat) (pages : List Reply) : List Reply → Progress → Prop
  where
  | asking : Outcome size pages [] (standing size pages)
  | done {last : Reply} {rest : List Reply} (hlast : last.IsLast)
      (hwithin : Within size (toolsOf (pages ++ [last]))) :
      Outcome size pages (last :: rest) (.done (toolsOf (pages ++ [last])))
  | failed {last : Reply} {rest : List Reply} {message : String}
      (h : Refused size pages last message) :
      Outcome size pages (last :: rest) (.failed message)

/-- A listing that stands after some pages follows the next ones as far as they
    go, asking for each of them once. -/
theorem Followed.replies (h : Followed size pages) (replies : List Reply) :
    ∃ more rest, replies = more ++ rest ∧ Followed size (pages ++ more) ∧
      Outcome size (pages ++ more) rest
        (replies.foldl (Progress.reply size) (standing size pages)) ∧
      asked size (standing size pages) replies =
        cursorAfter pages :: more.map Reply.following := by
  induction replies generalizing pages with
  | nil =>
    refine ⟨[], [], rfl, ?_, ?_, rfl⟩
    · rw [List.append_nil]
      exact h
    · rw [List.append_nil]
      exact .asking
  | cons reply replies ih =>
    have hasked : asked size (standing size pages) (reply :: replies) =
        cursorAfter pages :: asked size ((standing size pages).reply size reply) replies := rfl
    rw [List.foldl_cons, hasked]
    rcases h.reply reply with ⟨hnext, hreply⟩ | ⟨hlast, hwithin, hreply⟩ | ⟨message, hno, hreply⟩
    · obtain ⟨more, rest, rfl, hmore, hout, hrest⟩ := ih hnext
      rw [hreply, hrest, cursorAfter_concat]
      rw [List.append_assoc] at hmore hout
      exact ⟨reply :: more, rest, rfl, hmore, hout, rfl⟩
    · rw [hreply, foldl_done]
      refine ⟨[], reply :: replies, rfl, ?_, ?_, ?_⟩
      · rw [List.append_nil]
        exact h
      · rw [List.append_nil]
        exact .done hlast hwithin
      · cases replies <;> rfl
    · rw [hreply, foldl_failed]
      refine ⟨[], reply :: replies, rfl, ?_, ?_, ?_⟩
      · rw [List.append_nil]
        exact h
      · rw [List.append_nil]
        exact .failed hno
      · cases replies <;> rfl

/-- Whatever the server answers, a listing asks for at most `maxListPages` pages,
    each with the cursor of the one before, and never while it holds more than
    the bounds allow. It succeeds exactly with the tools of all its pages. -/
theorem listing_pages (size : RemoteTool → Nat) (replies : List Reply) :
    ∃ pages rest, replies = pages ++ rest ∧ Followed size pages ∧
      Outcome size pages rest (progress size replies) ∧
      asked size .start replies = none :: pages.map Reply.following :=
  (Followed.nil size).replies replies

/-! ### Pages do not matter -/

/-- A listing that the server brings to its end: pages that name the next one and
    a last one, as many as may be asked for. -/
structure Complete (pages : List Reply) (last : Reply) : Prop where
  next : ∀ page ∈ pages, page.following ≠ none
  last : last.IsLast
  short : pages.length < maxListPages

/-- A page within the bounds is refused only when it names one too many. -/
theorem Refused.of_within {reply : Reply} {message : String} (h : Refused size pages reply message)
    (hpage : ∃ tools nextCursor, reply = .page tools nextCursor)
    (hwithin : Within size (toolsOf (pages ++ [reply]))) :
    reply.following ≠ none ∧ pages.length + 1 = maxListPages := by
  obtain ⟨tools, nextCursor, rfl⟩ := hpage
  rw [toolsOf_concat] at hwithin
  cases h with
  | tools _ _ hmany => exact absurd hwithin.1 (Nat.not_le_of_lt hmany)
  | bytes _ _ _ hmany => exact absurd hwithin.2 (Nat.not_le_of_lt hmany)
  | pages _ _ _ hnext hmany => exact ⟨hnext, hmany⟩

theorem progress_concat (size : RemoteTool → Nat) (pages : List Reply) (reply : Reply) :
    progress size (pages ++ [reply]) = (progress size pages).reply size reply := by
  rw [progress, List.foldl_append]
  rfl

/-- Pages that go on take a listing where it stands. -/
theorem Followed.progress (h : Followed size pages) :
    progress size pages = standing size pages := by
  induction pages using List.reverseRecOn with
  | nil => rfl
  | append_singleton pages page ih =>
    have hshort := h.short
    rw [List.length_append, List.length_singleton] at hshort
    have hwithin := h.within
    rw [toolsOf_concat] at hwithin
    have hbefore : Followed size pages :=
      ⟨fun other hother => h.next other (List.mem_append_left _ hother), hwithin.of_append,
        by omega⟩
    rw [progress_concat, ih hbefore]
    have hpage := h.next page (List.mem_append_right _ (List.mem_singleton_self page))
    rcases hbefore.reply page with ⟨-, hnext⟩ | ⟨hlast, -⟩ | ⟨message, hno, -⟩
    · exact hnext
    · exact absurd hlast.2 hpage
    · obtain ⟨next, hnext⟩ := Option.ne_none_iff_exists'.mp hpage
      have hmany := hno.of_within ⟨_, _, (Reply.page_of_following hnext).1⟩ h.within
      omega

/-- The first reply that names no other page splits the replies in one way. -/
theorem split_unique {pages pages' rest rest' : List Reply} {last last' : Reply}
    (hpages : ∀ page ∈ pages, page.following ≠ none)
    (hpages' : ∀ page ∈ pages', page.following ≠ none) (hlast : last.following = none)
    (hlast' : last'.following = none) (h : pages ++ last :: rest = pages' ++ last' :: rest') :
    pages = pages' := by
  induction pages generalizing pages' with
  | nil =>
    cases pages' with
    | nil => rfl
    | cons page pages' =>
      obtain ⟨rfl, -⟩ := List.cons.inj h
      exact absurd hlast (hpages' last List.mem_cons_self)
  | cons page pages ih =>
    cases pages' with
    | nil =>
      obtain ⟨rfl, -⟩ := List.cons.inj h
      exact absurd hlast' (hpages page List.mem_cons_self)
    | cons page' pages' =>
      obtain ⟨rfl, hrest⟩ := List.cons.inj h
      rw [ih (fun other hother => hpages other (List.mem_cons_of_mem _ hother))
        (fun other hother => hpages' other (List.mem_cons_of_mem _ hother)) hrest]

/-- Such a listing succeeds exactly when all of its tools are within the bounds. -/
theorem Complete.done {last : Reply} (h : Complete pages last) :
    progress size (pages ++ [last]) = .done listed ↔
      Within size listed ∧ toolsOf (pages ++ [last]) = listed := by
  constructor
  · intro hdone
    obtain ⟨followed, rest, hsplit, hfollowed, hout, -⟩ := listing_pages size (pages ++ [last])
    rw [hdone] at hout
    cases hout with
    | done hlast hwithin =>
      have hpages := split_unique h.next hfollowed.next h.last.2 hlast.2 hsplit
      rw [← hpages] at hsplit hwithin ⊢
      obtain ⟨rfl, -⟩ := List.cons.inj (List.append_cancel_left hsplit)
      exact ⟨hwithin, rfl⟩
  · rintro ⟨hwithin, rfl⟩
    have hbefore : Followed size pages := by
      rw [toolsOf_concat] at hwithin
      exact ⟨h.next, hwithin.of_append, h.short⟩
    rw [progress_concat, hbefore.progress]
    rcases hbefore.reply last with ⟨hnext, -⟩ | ⟨-, -, hdone⟩ | ⟨message, hno, -⟩
    · exact absurd h.last.2
        (hnext.next last (List.mem_append_right _ (List.mem_singleton_self last)))
    · exact hdone
    · exact absurd h.last.2 (hno.of_within h.last.1 hwithin).1

/-- How a server cuts its tools into pages makes no difference to what is
    listed, as long as it needs no more pages than may be asked for. -/
theorem paging_transparent {pages' : List Reply} {last last' : Reply} (h : Complete pages last)
    (h' : Complete pages' last')
    (htools : toolsOf (pages ++ [last]) = toolsOf (pages' ++ [last'])) :
    progress size (pages ++ [last]) = .done listed ↔
      progress size (pages' ++ [last']) = .done listed := by
  rw [h.done, h'.done, htools]

def readTool : RemoteTool := ⟨"read", "", .null⟩

def writeTool : RemoteTool := ⟨"write", "", .null⟩

/-- Two tools on a page each, or on one whose cursor is empty. -/
theorem paging_transparent_two :
    progress (fun _ => 2) [.page [readTool] (some "2"), .page [writeTool] none] =
        .done [readTool, writeTool] ↔
      progress (fun _ => 2) [.page [readTool, writeTool] (some "")] =
        .done [readTool, writeTool] := by
  have htwo : Complete [.page [readTool] (some "2")] (.page [writeTool] none) := by
    refine ⟨fun page hpage => ?_, ⟨⟨_, _, rfl⟩, rfl⟩, by decide⟩
    rw [List.mem_singleton.mp hpage]
    exact Option.some_ne_none "2"
  have hone : Complete [] (.page [readTool, writeTool] (some "")) :=
    ⟨fun _ hpage => absurd hpage List.not_mem_nil, ⟨⟨_, _, rfl⟩, rfl⟩, by decide⟩
  exact paging_transparent htwo hone rfl

end

end Kyora.Mcp
