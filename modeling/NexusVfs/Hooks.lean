/-
Native intercept hooks: `kernel/src/core/dispatch/mod.rs`.

A hook lets a system call pass, refuses it, or replaces the bytes to be written; each
hook of a registry sees the bytes that the one before it produced.
-/
import NexusVfs.Text

namespace NexusVfs.Hooks

open Text Words

/-! ## Contexts -/

structure HookIdentity where
  user_id : String
  zone_id : String
  agent_id : String
  is_admin : Bool
  deriving DecidableEq, Repr

structure ReadHookCtx where
  path : String
  identity : HookIdentity
  content : Option Bytes
  content_id : Option String

structure WriteHookCtx where
  path : String
  identity : HookIdentity
  content : Bytes
  is_new_file : Bool
  content_id : Option String
  new_version : ℕ
  size_bytes : Option ℕ

structure DeleteHookCtx where
  path : String
  identity : HookIdentity

structure RenameHookCtx where
  old_path : String
  new_path : String
  identity : HookIdentity
  is_directory : Bool

inductive HookContext where
  | Read (c : ReadHookCtx)
  | Write (c : WriteHookCtx)
  | Delete (c : DeleteHookCtx)
  | Rename (c : RenameHookCtx)

def HookContext.path : HookContext → String
  | .Read c => c.path
  | .Write c => c.path
  | .Delete c => c.path
  | .Rename c => c.old_path

inductive HookOutcome where
  | Pass
  | Replace (bytes : Bytes)
  deriving DecidableEq, Repr

def write_context (path : String) (identity : HookIdentity) (content : Bytes) : WriteHookCtx :=
  { path, identity, content, is_new_file := false, content_id := none, new_version := 0
    size_bytes := none }

/-- Both `/__sys__/` tests of the kernel. -/
def is_system_path (path : String) : Bool := path.startsWith "/__sys__/"

/-! ## The registry -/

structure NativeInterceptHook where
  name : String
  on_pre : HookContext → Except String HookOutcome
  mutating_path_suffixes : List String

/-- The context with the bytes that the chain has produced so far. -/
def chained (ctx : HookContext) (replacement : Option Bytes) : HookContext :=
  match replacement, ctx with
  | some bytes, .Write c => .Write { c with content := bytes }
  | _, ctx => ctx

/-- The loop of `dispatch_pre`, from the `replacement` of the hooks before. -/
def dispatch_pre_loop (ctx : HookContext) :
    List NativeInterceptHook → Option Bytes → Except String (Option Bytes)
  | [], replacement => .ok replacement
  | hook :: hooks, replacement =>
    match hook.on_pre (chained ctx replacement) with
    | .error message => .error message
    | .ok .Pass => dispatch_pre_loop ctx hooks replacement
    | .ok (.Replace bytes) => dispatch_pre_loop ctx hooks (some bytes)

def dispatch_pre (hooks : List NativeInterceptHook) (ctx : HookContext) : Except String (Option Bytes) :=
  dispatch_pre_loop ctx hooks none

def has_mutating_match (hooks : List NativeInterceptHook) (path : String) : Bool :=
  hooks.any fun hook => hook.mutating_path_suffixes.any fun leaf => has_suffix path leaf

end NexusVfs.Hooks
